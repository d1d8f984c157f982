import Hilti.Bytes.Objects

/-!
# Bytes objects as byte sequences

What a program may rely on is stated by a second machine over the same operations.
There an object is the bytes ever written to it together with the number of those that
have been trimmed, and an iterator is a position among the bytes written.  The machine
takes only operations on iterators whose position has not been trimmed, and trims only
at such an iterator into the object, before its end.  Every run of it is also one of the
heap, where walking over an object yields its bytes and every iterator keeps its place.
-/

namespace Hilti.Bytes

open Hilti.Lib

set_option autoImplicit false

/-! ## The specification -/

structure Obj where
  written : List UInt8
  trimmed : ℕ

def Obj.content (o : Obj) : List UInt8 :=
  o.written.drop o.trimmed

structure Pos where
  obj : ℕ
  pos : ℕ

structure Spec where
  objs : List Obj
  iters : List Pos

namespace Spec

def add (A : Spec) (data : List UInt8) : Spec :=
  { A with objs := A.objs ++ [⟨data, 0⟩] }

def obtain (A : Spec) (obj pos : ℕ) : Spec :=
  { A with iters := A.iters ++ [⟨obj, pos⟩] }

/-- The object of an iterator whose position has not been trimmed. -/
def live (A : Spec) (q : Pos) : Option Obj :=
  A.objs[q.obj]?.filter fun o => o.trimmed ≤ q.pos

def write (A : Spec) (b : ℕ) (data : List UInt8) : Option Spec := do
  let o ← A.objs[b]?
  some { A with objs := A.objs.set b { o with written := o.written ++ data } }

def step (A : Spec) : Op → Option Spec
  | .new => some (A.add [])
  | .newFromData data => some (A.add data)
  | .append b other => do
    let o ← A.objs[other]?
    A.write b o.content
  | .appendRaw b raw => A.write b raw
  | .concat b1 b2 => do
    let o1 ← A.objs[b1]?
    let o2 ← A.objs[b2]?
    some (A.add (o1.content ++ o2.content))
  | .sub i1 i2 => do
    let q1 ← A.iters[i1]?
    let q2 ← A.iters[i2]?
    let o ← A.live q1
    let _ ← A.live q2
    if q1.obj = q2.obj then some (A.add ((o.written.drop q1.pos).take (q2.pos - q1.pos)))
    else none
  | .trim b i => do
    let q ← A.iters[i]?
    let o ← A.live q
    if q.obj = b ∧ q.pos < o.written.length then
      some { A with objs := A.objs.set b { o with trimmed := q.pos } }
    else none
  | .bytesBegin b => do
    let o ← A.objs[b]?
    some (A.obtain b o.trimmed)
  | .bytesEnd b => do
    let o ← A.objs[b]?
    some (A.obtain b o.written.length)
  | .incr i => do
    let q ← A.iters[i]?
    let o ← A.live q
    some (A.obtain q.obj (min (q.pos + 1) o.written.length))

def machine : Machine Spec Op where
  start := ⟨[], []⟩
  next := step

theorem live_eq_some {A : Spec} {q : Pos} {o : Obj} :
    A.live q = some o ↔ A.objs[q.obj]? = some o ∧ o.trimmed ≤ q.pos := by
  rw [live, Option.filter_eq_some_iff, decide_eq_true_iff]

end Spec

/-! ## The objects on the heap -/

/-- The objects of a program lie in different chunks. -/
structure World (H : Heap) (xs : List Shape) : Prop where
  rep : ∀ (n : ℕ) (x : Shape), xs[n]? = some x → Rep H x
  old : ∀ (n : ℕ) (x : Shape), xs[n]? = some x → ∀ a ∈ x.addrs, a < H.fresh
  disjoint : ∀ (m n : ℕ) (x y : Shape), xs[m]? = some x → xs[n]? = some y → m ≠ n →
    ∀ a ∈ x.addrs, a ∉ y.addrs

section

variable {H H' : Heap} {xs : List Shape}

theorem World.update (h : World H xs) {n : ℕ} {x x' : Shape} (hx : xs[n]? = some x)
    (hrep : Rep H' x') (hfresh : H.fresh ≤ H'.fresh)
    (haddrs : ∀ a ∈ x'.addrs, a ∈ x.addrs ∨ (H.fresh ≤ a ∧ a < H'.fresh))
    (hframe : ∀ b < H.fresh, b ∉ x.addrs → H'.chunk b = H.chunk b) :
    World H' (xs.set n x') := by
  have hn : n < xs.length := (List.getElem?_eq_some_iff.mp hx).1
  have hother : ∀ (m : ℕ) (y : Shape), m ≠ n → (xs.set n x')[m]? = some y → xs[m]? = some y := by
    intro m y hm hy
    rwa [List.getElem?_set_ne (Ne.symm hm)] at hy
  have hself : ∀ y : Shape, (xs.set n x')[n]? = some y → y = x' := by
    intro y hy
    rw [List.getElem?_set_self hn] at hy
    exact (Option.some.inj hy).symm
  have hapart : ∀ (m : ℕ) (y : Shape), m ≠ n → xs[m]? = some y → ∀ a ∈ y.addrs, a ∉ x'.addrs := by
    intro m y hm hy a ha ha'
    rcases haddrs a ha' with hmem | ⟨hle, -⟩
    · exact h.disjoint m n y x hy hx hm a ha hmem
    · have := h.old m y hy a ha
      omega
  constructor
  · intro m y hy
    by_cases hm : m = n
    · subst hm
      rwa [hself y hy]
    · have hy' := hother m y hm hy
      refine (h.rep m y hy').frame (fun a ha => ?_) hfresh
      exact hframe a (h.old m y hy' a ha) (h.disjoint m n y x hy' hx hm a ha)
  · intro m y hy a ha
    by_cases hm : m = n
    · subst hm
      rw [hself y hy] at ha
      rcases haddrs a ha with hmem | ⟨-, hlt⟩
      · exact (h.old m x hx a hmem).trans_le hfresh
      · exact hlt
    · exact (h.old m y (hother m y hm hy) a ha).trans_le hfresh
  · intro m k y z hy hz hne a ha ha'
    by_cases hm : m = n
    · subst hm
      rw [hself y hy] at ha
      exact hapart k z hne.symm (hother k z hne.symm hz) a ha' ha
    · have hy' := hother m y hm hy
      by_cases hk : k = n
      · subst hk
        rw [hself z hz] at ha'
        exact hapart m y hm hy' a ha ha'
      · exact h.disjoint m k y z hy' (hother k z hk hz) hne a ha ha'

def Shape.single (H : Heap) (data : List UInt8) : Shape :=
  ⟨H.fresh, data, [], 0⟩

theorem Shape.single_rep (H : Heap) (data : List UInt8) :
    Rep (bytesNew H data).1 (Shape.single H data) where
  first_eq := by simp [bytesNew, Heap.write, Shape.single, liveFrom]
  linked := trivial
  trimmed_lt := .inr rfl
  size_lt := by simp [bytesNew, Shape.single]
  nodup := by simp [Shape.addrs, Shape.single]

theorem World.new (h : World H xs) (data : List UInt8) :
    World (bytesNew H data).1 (xs ++ [Shape.single H data]) := by
  have hcases : ∀ (m : ℕ) (y : Shape), (xs ++ [Shape.single H data])[m]? = some y →
      xs[m]? = some y ∨ (m = xs.length ∧ y = Shape.single H data) := by
    intro m y hy
    rcases Nat.lt_trichotomy m xs.length with hlt | rfl | hgt
    · rw [List.getElem?_append_left hlt] at hy
      exact .inl hy
    · rw [List.getElem?_concat_length] at hy
      exact .inr ⟨rfl, (Option.some.inj hy).symm⟩
    · rw [List.getElem?_eq_none (by simp; omega)] at hy
      cases hy
  have hnew : ∀ a ∈ (Shape.single H data).addrs, a = H.fresh := by
    intro a ha
    simpa [Shape.addrs, Shape.single] using ha
  constructor
  · intro m y hy
    obtain hy | ⟨-, rfl⟩ := hcases m y hy
    · refine (h.rep m y hy).frame (fun a ha => ?_) (Nat.le_succ _)
      have hlt := h.old m y hy a ha
      simp [bytesNew, Heap.write, hlt.ne]
    · exact Shape.single_rep H data
  · intro m y hy a ha
    obtain hy | ⟨-, rfl⟩ := hcases m y hy
    · exact (h.old m y hy a ha).trans (Nat.lt_succ_self _)
    · rw [hnew a ha]
      exact Nat.lt_succ_self _
  · intro m k y z hy hz hne a ha ha'
    obtain hy | ⟨rfl, rfl⟩ := hcases m y hy <;> obtain hz | ⟨rfl, rfl⟩ := hcases k z hz
    · exact h.disjoint m k y z hy hz hne a ha ha'
    · exact (h.old m y hy a ha).ne (hnew a ha')
    · exact (h.old k z hz a ha').ne (hnew a ha)
    · exact hne rfl

end

/-! ## The simulation -/

def Shape.obj (x : Shape) : Obj :=
  ⟨x.written, x.trimmed⟩

def Placed (xs : List Shape) (i : Iter) (q : Pos) : Prop :=
  ∃ x, xs[q.obj]? = some x ∧ Points x i q.pos

structure Sim (xs : List Shape) (s : State) (A : Spec) : Prop where
  world : World s.heap xs
  objs_eq : s.objs = xs.map Shape.first
  spec_eq : A.objs = xs.map Shape.obj
  placed : List.Forall₂ (Placed xs) s.iters A.iters

section

variable {xs : List Shape} {s : State} {A : Spec} {i : Iter} {q : Pos} {x : Shape}

theorem Points.extend {k : ℕ} (h : Points x i k) (l : Chunks) :
    Points { x with rest := x.rest ++ l } i k := by
  obtain ⟨a, d, p, hbytes, hat, hcur, hk⟩ := h
  refine ⟨a, d, p, hbytes, ?_, hcur, hk⟩
  rcases hat with hat | ⟨l₁, l₂, heq, hp⟩
  · exact .inl hat
  · refine .inr ⟨l₁, l₂ ++ l, ?_, hp⟩
    simp only [heq, List.append_assoc, List.cons_append]

theorem Points.retrim {k : ℕ} (h : Points x i k) (t : ℕ) : Points { x with trimmed := t } i k :=
  h

theorem Placed.set {n : ℕ} {x' : Shape} (h : Placed xs i q) (hx : xs[n]? = some x)
    (hpoints : ∀ k, Points x i k → Points x' i k) : Placed (xs.set n x') i q := by
  obtain ⟨y, hy, hi⟩ := h
  by_cases hq : q.obj = n
  · refine ⟨x', ?_, ?_⟩
    · rw [hq, List.getElem?_set_self (List.getElem?_eq_some_iff.mp hx).1]
    · rw [hq, hx] at hy
      cases hy
      exact hpoints q.pos hi
  · exact ⟨y, by rwa [List.getElem?_set_ne (Ne.symm hq)], hi⟩

theorem Placed.append (h : Placed xs i q) (ys : List Shape) : Placed (xs ++ ys) i q := by
  obtain ⟨y, hy, hi⟩ := h
  refine ⟨y, ?_, hi⟩
  rw [List.getElem?_append_left (List.getElem?_eq_some_iff.mp hy).1, hy]

namespace Sim

theorem object (h : Sim xs s A) {n : ℕ} {o : Obj} (ho : A.objs[n]? = some o) :
    ∃ x, xs[n]? = some x ∧ x.obj = o ∧ s.objs[n]? = some x.first ∧ Rep s.heap x := by
  rw [h.spec_eq, List.getElem?_map] at ho
  obtain ⟨x, hx, hxo⟩ := Option.map_eq_some_iff.mp ho
  refine ⟨x, hx, hxo, ?_, h.world.rep n x hx⟩
  rw [h.objs_eq, List.getElem?_map, hx]
  rfl

theorem iterator (h : Sim xs s A) {n : ℕ} {o : Obj} (hq : A.iters[n]? = some q)
    (hlive : A.live q = some o) :
    ∃ i x, s.iters[n]? = some i ∧ xs[q.obj]? = some x ∧ x.obj = o ∧
      s.objs[q.obj]? = some x.first ∧ Rep s.heap x ∧ Points x i q.pos ∧ x.trimmed ≤ q.pos := by
  obtain ⟨ho, hle⟩ := Spec.live_eq_some.mp hlive
  obtain ⟨x, hx, rfl, hfirst, hrep⟩ := h.object ho
  obtain ⟨hn, hget⟩ := List.getElem?_eq_some_iff.mp hq
  have hlen := h.placed.length_eq
  have hi := h.placed.get (i := n) (by omega) hn
  obtain ⟨y, hy, hpoints⟩ := hi
  simp only [List.get_eq_getElem] at hy hpoints
  rw [hget, hx] at hy
  cases hy
  rw [hget] at hpoints
  exact ⟨_, x, List.getElem?_eq_getElem (by omega), hx, rfl, hfirst, hrep, hpoints, hle⟩

theorem add (h : Sim xs s A) (data : List UInt8) :
    ∃ xs', Sim xs' (s.add (bytesNew s.heap data)) (A.add data) := by
  refine ⟨xs ++ [Shape.single s.heap data], h.world.new data, ?_, ?_, ?_⟩
  · simp [State.add, bytesNew, h.objs_eq, Shape.single]
  · simp [Spec.add, h.spec_eq, Shape.single, Shape.obj, Shape.written, bytesOf]
  · exact h.placed.imp fun i q hi => hi.append _

theorem obtain_iterator (h : Sim xs s A) {n k : ℕ} (hx : xs[n]? = some x) (hi : Points x i k) :
    Sim xs (s.obtain i) (A.obtain n k) where
  world := h.world
  objs_eq := h.objs_eq
  spec_eq := h.spec_eq
  placed := List.rel_append h.placed (.cons ⟨x, hx, hi⟩ .nil)

theorem update (h : Sim xs s A) {n : ℕ} {x' : Shape} {H' : Heap} (hx : xs[n]? = some x)
    (hworld : World H' (xs.set n x')) (hfirst : x'.first = x.first)
    (hpoints : ∀ i k, Points x i k → Points x' i k) :
    Sim (xs.set n x') { s with heap := H' } { A with objs := A.objs.set n x'.obj } where
  world := hworld
  objs_eq := by
    have hn := (List.getElem?_eq_some_iff.mp hx).1
    rw [List.map_set, hfirst]
    refine h.objs_eq.trans (List.ext_getElem? fun m => ?_)
    by_cases hm : m = n
    · subst hm
      rw [List.getElem?_set_self (by simpa using hn), List.getElem?_map, hx]
      rfl
    · rw [List.getElem?_set_ne (Ne.symm hm)]
  spec_eq := by
    rw [List.map_set, ← h.spec_eq]
  placed := h.placed.imp fun i _ hi => hi.set hx fun k => hpoints i k

theorem write (h : Sim xs s A) {n : ℕ} (hx : xs[n]? = some x) {data : List UInt8}
    (hne : data ≠ []) :
    ∃ H' xs', (tail (bytesNew s.heap data).1 x.first).bind
        (fun t => addChunk (bytesNew s.heap data).1 t s.heap.fresh) = some H' ∧
      Sim xs' { s with heap := H' }
        { A with objs := A.objs.set n { x.obj with written := x.obj.written ++ data } } := by
  have hold := h.world.old n x hx
  obtain ⟨H', hadd, hrep, hfresh, hframe⟩ := addChunk_spec (h.world.rep n x hx) hne hold
  have hobj : Shape.obj { x with rest := x.rest ++ [(s.heap.fresh, data)] } =
      { x.obj with written := x.obj.written ++ data } := by
    simp [Shape.obj, Shape.written, bytesOf]
  rw [← hobj]
  refine ⟨H', _, hadd, h.update hx (h.world.update hx hrep (by omega) ?_ hframe) rfl
    fun i k hi => hi.extend _⟩
  intro a ha
  have hcases : a ∈ x.addrs ∨ a = s.heap.fresh := by
    simpa [Shape.addrs, or_assoc] using ha
  refine hcases.imp id fun heq => ?_
  omega

theorem write_nil (h : Sim xs s A) {n : ℕ} (hx : xs[n]? = some x) :
    { A with objs := A.objs.set n { x.obj with written := x.obj.written ++ [] } } = A := by
  have ho : A.objs[n]? = some x.obj := by
    rw [h.spec_eq, List.getElem?_map, hx]
    rfl
  obtain ⟨hn, hget⟩ := List.getElem?_eq_some_iff.mp ho
  rw [List.append_nil, ← hget, List.set_getElem_self]

end Sim

/-! ## Steps -/

theorem Sim.append_raw (h : Sim xs s A) {b : ℕ} {raw : List UInt8} {A' : Spec}
    (hstep : A.write b raw = some A') :
    ∃ s' xs', step s (.appendRaw b raw) = some s' ∧ Sim xs' s' A' := by
  obtain ⟨o, ho, heq⟩ := Option.bind_eq_some_iff.mp hstep
  obtain ⟨x, hx, rfl, hfirst, -⟩ := h.object ho
  cases heq
  by_cases hne : raw = []
  · subst hne
    refine ⟨s, xs, ?_, ?_⟩
    · simp [step, hfirst, bytesAppendRaw]
    · rw [h.write_nil hx]
      exact h
  · obtain ⟨H', xs', hadd, hsim⟩ := h.write hx hne
    refine ⟨_, xs', ?_, hsim⟩
    have hraw : bytesAppendRaw s.heap x.first raw = some H' := by
      rw [bytesAppendRaw, if_neg (by simpa using hne)]
      exact hadd
    simp [step, hfirst, hraw]

theorem Sim.append (h : Sim xs s A) {b other : ℕ} {o : Obj} {A' : Spec}
    (ho : A.objs[other]? = some o) (hstep : A.write b o.content = some A') :
    ∃ s' xs', step s (.append b other) = some s' ∧ Sim xs' s' A' := by
  obtain ⟨y, -, rfl, hother, hrepy⟩ := h.object ho
  obtain ⟨o, ho, heq⟩ := Option.bind_eq_some_iff.mp hstep
  obtain ⟨x, hx, rfl, hfirst, -⟩ := h.object ho
  cases heq
  have hlen : bytesLen s.heap y.first = some (y.obj.content.length : ℤ) := hrepy.len_eq
  have hcopy : copyLoop s.heap s.heap.fresh (some y.first) = some y.obj.content := hrepy.copy_eq
  by_cases hne : y.obj.content = []
  · refine ⟨s, xs, ?_, ?_⟩
    · simp [step, hfirst, hother, bytesAppend, hlen, hne]
    · rw [hne, h.write_nil hx]
      exact h
  · obtain ⟨H', xs', hadd, hsim⟩ := h.write hx hne
    refine ⟨_, xs', ?_, hsim⟩
    have happend : bytesAppend s.heap x.first y.first = some H' := by
      simp only [bytesAppend, hlen, hcopy, Option.bind_eq_bind, Option.bind_some]
      rw [if_neg (by simpa using hne)]
      exact hadd
    simp [step, hfirst, hother, happend]

theorem Sim.trim (h : Sim xs s A) {n : ℕ} {o : Obj} (hq : A.iters[n]? = some q)
    (hlive : A.live q = some o) (hlt : q.pos < o.written.length) :
    ∃ s' xs', step s (.trim q.obj n) = some s' ∧
      Sim xs' s' { A with objs := A.objs.set q.obj { o with trimmed := q.pos } } := by
  obtain ⟨i, x, hi, hx, rfl, hfirst, hrep, hpoints, hle⟩ := h.iterator hq hlive
  obtain ⟨H', htrim, hrep', hfresh, hframe⟩ := bytesTrim_spec hrep hpoints hle hlt
  refine ⟨{ s with heap := H' }, xs.set q.obj { x with trimmed := q.pos }, ?_, ?_⟩
  · simp [step, hfirst, hi, htrim]
  · refine h.update hx (h.world.update hx hrep' hfresh.ge (fun a ha => .inl ha) ?_) rfl
      fun i k hi => hi.retrim _
    exact fun b _ hb => hframe b hb

/-- The step lemma. -/
theorem Sim.step (h : Sim xs s A) {op : Op} {A' : Spec} (hstep : A.step op = some A') :
    ∃ s' xs', Bytes.step s op = some s' ∧ Sim xs' s' A' := by
  cases op with
  | new =>
    cases hstep
    obtain ⟨xs', hsim⟩ := h.add []
    exact ⟨_, xs', rfl, hsim⟩
  | newFromData data =>
    cases hstep
    obtain ⟨xs', hsim⟩ := h.add data
    exact ⟨_, xs', rfl, hsim⟩
  | append b other =>
    obtain ⟨o, ho, hstep⟩ := Option.bind_eq_some_iff.mp hstep
    exact h.append ho hstep
  | appendRaw b raw => exact h.append_raw hstep
  | concat b1 b2 =>
    obtain ⟨o1, ho1, hstep⟩ := Option.bind_eq_some_iff.mp hstep
    obtain ⟨o2, ho2, hstep⟩ := Option.bind_eq_some_iff.mp hstep
    cases hstep
    obtain ⟨x, -, rfl, hfirst, hrep⟩ := h.object ho1
    obtain ⟨y, -, rfl, hfirst', hrep'⟩ := h.object ho2
    obtain ⟨xs', hsim⟩ := h.add (x.obj.content ++ y.obj.content)
    refine ⟨_, xs', ?_, hsim⟩
    simp [Bytes.step, hfirst, hfirst', bytesConcat, hrep.copy_eq, hrep'.copy_eq, Obj.content,
      Shape.obj]
  | sub i1 i2 =>
    obtain ⟨q1, hq1, hstep⟩ := Option.bind_eq_some_iff.mp hstep
    obtain ⟨q2, hq2, hstep⟩ := Option.bind_eq_some_iff.mp hstep
    obtain ⟨o, hlive1, hstep⟩ := Option.bind_eq_some_iff.mp hstep
    obtain ⟨o', hlive2, hstep⟩ := Option.bind_eq_some_iff.mp hstep
    obtain ⟨i, x, hi, hx, rfl, -, hrep, hpoints, hle⟩ := h.iterator hq1 hlive1
    obtain ⟨i', x', hi', hx', -, -, -, hpoints', hle'⟩ := h.iterator hq2 hlive2
    split at hstep
    · rename_i hobj
      cases hstep
      rw [← hobj, hx] at hx'
      cases hx'
      obtain ⟨xs', hsim⟩ := h.add ((x.written.drop q1.pos).take (q2.pos - q1.pos))
      refine ⟨_, xs', ?_, hsim⟩
      simp [Bytes.step, hi, hi', bytesSub_spec hrep hpoints hpoints' hle hle']
    · cases hstep
  | trim b n =>
    obtain ⟨q, hq, hstep⟩ := Option.bind_eq_some_iff.mp hstep
    obtain ⟨o, hlive, hstep⟩ := Option.bind_eq_some_iff.mp hstep
    split at hstep
    · rename_i hcond
      obtain ⟨rfl, hlt⟩ := hcond
      cases hstep
      exact h.trim hq hlive hlt
    · cases hstep
  | bytesBegin b =>
    obtain ⟨o, ho, hstep⟩ := Option.bind_eq_some_iff.mp hstep
    cases hstep
    obtain ⟨x, hx, rfl, hfirst, hrep⟩ := h.object ho
    obtain ⟨i, hbegin, hi⟩ := bytesBegin_spec hrep
    refine ⟨s.obtain i, xs, ?_, h.obtain_iterator hx hi⟩
    simp [Bytes.step, hfirst, hbegin]
  | bytesEnd b =>
    obtain ⟨o, ho, hstep⟩ := Option.bind_eq_some_iff.mp hstep
    cases hstep
    obtain ⟨x, hx, rfl, hfirst, hrep⟩ := h.object ho
    obtain ⟨i, hend, hi⟩ := bytesEnd_spec hrep
    refine ⟨s.obtain i, xs, ?_, h.obtain_iterator hx hi⟩
    simp [Bytes.step, hfirst, hend]
  | incr n =>
    obtain ⟨q, hq, hstep⟩ := Option.bind_eq_some_iff.mp hstep
    obtain ⟨o, hlive, hstep⟩ := Option.bind_eq_some_iff.mp hstep
    cases hstep
    obtain ⟨i, x, hi, hx, rfl, -, hrep, hpoints, hle⟩ := h.iterator hq hlive
    obtain ⟨i', hincr, hi'⟩ := iteratorIncr_spec hrep hpoints hle
    refine ⟨s.obtain i', xs, ?_, h.obtain_iterator hx hi'⟩
    simp [Bytes.step, hi, hincr]

end

/-! ## Runs -/

/-- Walking over an object yields its content, from the index of the bytes trimmed so far
on. -/
def Shows (H : Heap) (b : ℕ) (o : Obj) : Prop :=
  (∀ fuel, o.content.length < fuel → readBytes H fuel b = some o.content) ∧
    (bytesBegin H b).bind (iteratorIndex H) = some (o.trimmed : ℤ)

/-- The iterator has its index, and if it is not at the end, it dereferences to the byte
there and the next iterator has the next index. -/
def StandsAt (H : Heap) (i : Iter) (o : Obj) (k : ℕ) : Prop :=
  iteratorIndex H i = some (k : ℤ) ∧
    ∀ x, o.written[k]? = some x → iteratorDeref H i = some (.ok x) ∧
      (iteratorIncr H i).bind (iteratorIndex H) = some (k + 1 : ℤ)

/-- What a program sees of its objects and of the iterators that have not been trimmed. -/
structure Agrees (s : State) (A : Spec) : Prop where
  objects : ∀ (n : ℕ) (o : Obj), A.objs[n]? = some o → ∃ b, s.objs[n]? = some b ∧ Shows s.heap b o
  iterators : ∀ (n : ℕ) (q : Pos) (o : Obj), A.iters[n]? = some q → A.live q = some o →
    ∃ i, s.iters[n]? = some i ∧ StandsAt s.heap i o q.pos

theorem Rep.shows {H : Heap} {x : Shape} (h : Rep H x) : Shows H x.first x.obj := by
  obtain ⟨i, hbegin, hi⟩ := bytesBegin_spec h
  refine ⟨fun fuel hf => readBytes_spec h hf, ?_⟩
  rw [hbegin]
  exact iteratorIndex_spec h hi le_rfl

theorem Points.standsAt {H : Heap} {x : Shape} {i : Iter} {k : ℕ} (hi : Points x i k)
    (h : Rep H x) (hle : x.trimmed ≤ k) : StandsAt H i x.obj k := by
  refine ⟨iteratorIndex_spec h hi hle, fun b hb => ⟨iteratorDeref_spec h hi hle hb, ?_⟩⟩
  obtain ⟨i', hincr, hi'⟩ := iteratorIncr_spec h hi hle
  have hk : k < x.written.length := (List.getElem?_eq_some_iff.mp hb).1
  rw [Nat.min_eq_left hk] at hi'
  rw [hincr]
  exact iteratorIndex_spec h hi' (by omega)

theorem Sim.agrees {xs : List Shape} {s : State} {A : Spec} (h : Sim xs s A) : Agrees s A where
  objects := by
    intro n o ho
    obtain ⟨x, -, rfl, hfirst, hrep⟩ := h.object ho
    exact ⟨x.first, hfirst, hrep.shows⟩
  iterators := by
    intro n q o hq hlive
    obtain ⟨i, x, hi, -, rfl, -, hrep, hpoints, hle⟩ := h.iterator hq hlive
    exact ⟨i, hi, hpoints.standsAt hrep hle⟩

/-! ## Iterators across a run -/

theorem getElem?_extends {α : Type} {l l' : List α} (h : l <+: l') {n : ℕ} {x : α}
    (hx : l[n]? = some x) : l'[n]? = some x := by
  obtain ⟨m, rfl⟩ := h
  rw [List.getElem?_append_left (List.getElem?_eq_some_iff.mp hx).1, hx]

theorem step_iters {s s' : State} {op : Op} (h : step s op = some s') : s.iters <+: s'.iters := by
  cases op with
  | new =>
    cases h
    exact List.prefix_rfl
  | newFromData data =>
    cases h
    exact List.prefix_rfl
  | append b other =>
    obtain ⟨_, -, h⟩ := Option.bind_eq_some_iff.mp h
    obtain ⟨_, -, h⟩ := Option.bind_eq_some_iff.mp h
    obtain ⟨_, -, h⟩ := Option.bind_eq_some_iff.mp h
    cases h
    exact List.prefix_rfl
  | appendRaw b raw =>
    obtain ⟨_, -, h⟩ := Option.bind_eq_some_iff.mp h
    obtain ⟨_, -, h⟩ := Option.bind_eq_some_iff.mp h
    cases h
    exact List.prefix_rfl
  | concat b1 b2 =>
    obtain ⟨_, -, h⟩ := Option.bind_eq_some_iff.mp h
    obtain ⟨_, -, h⟩ := Option.bind_eq_some_iff.mp h
    obtain ⟨_, -, h⟩ := Option.bind_eq_some_iff.mp h
    cases h
    exact List.prefix_rfl
  | sub i1 i2 =>
    obtain ⟨_, -, h⟩ := Option.bind_eq_some_iff.mp h
    obtain ⟨_, -, h⟩ := Option.bind_eq_some_iff.mp h
    obtain ⟨r, -, h⟩ := Option.bind_eq_some_iff.mp h
    cases r <;> cases h <;> exact List.prefix_rfl
  | trim b i =>
    obtain ⟨_, -, h⟩ := Option.bind_eq_some_iff.mp h
    obtain ⟨_, -, h⟩ := Option.bind_eq_some_iff.mp h
    obtain ⟨r, -, h⟩ := Option.bind_eq_some_iff.mp h
    cases r <;> cases h <;> exact List.prefix_rfl
  | bytesBegin b =>
    obtain ⟨_, -, h⟩ := Option.bind_eq_some_iff.mp h
    obtain ⟨i, -, h⟩ := Option.bind_eq_some_iff.mp h
    cases h
    exact List.prefix_append _ _
  | bytesEnd b =>
    obtain ⟨_, -, h⟩ := Option.bind_eq_some_iff.mp h
    obtain ⟨i, -, h⟩ := Option.bind_eq_some_iff.mp h
    cases h
    exact List.prefix_append _ _
  | incr i =>
    obtain ⟨_, -, h⟩ := Option.bind_eq_some_iff.mp h
    obtain ⟨i, -, h⟩ := Option.bind_eq_some_iff.mp h
    cases h
    exact List.prefix_append _ _

/-- Objects are written to at their end and trimmed further only. -/
structure Spec.Grows (A A' : Spec) : Prop where
  objs : ∀ (n : ℕ) (o : Obj), A.objs[n]? = some o → ∃ o', A'.objs[n]? = some o' ∧
    o.written <+: o'.written ∧ o.trimmed ≤ o'.trimmed
  iters : A.iters <+: A'.iters

namespace Spec

variable {A A' : Spec}

theorem Grows.refl (A : Spec) : A.Grows A :=
  ⟨fun _ o ho => ⟨o, ho, List.prefix_rfl, le_rfl⟩, List.prefix_rfl⟩

theorem Grows.trans {B : Spec} (h : A.Grows A') (h' : A'.Grows B) : A.Grows B := by
  refine ⟨fun n o ho => ?_, h.iters.trans h'.iters⟩
  obtain ⟨o₁, ho₁, hw₁, ht₁⟩ := h.objs n o ho
  obtain ⟨o₂, ho₂, hw₂, ht₂⟩ := h'.objs n o₁ ho₁
  exact ⟨o₂, ho₂, hw₁.trans hw₂, ht₁.trans ht₂⟩

theorem grows_add (A : Spec) (data : List UInt8) : A.Grows (A.add data) := by
  refine ⟨fun n o ho => ⟨o, ?_, List.prefix_rfl, le_rfl⟩, List.prefix_rfl⟩
  rw [Spec.add, List.getElem?_append_left (List.getElem?_eq_some_iff.mp ho).1, ho]

theorem grows_obtain (A : Spec) (n k : ℕ) : A.Grows (A.obtain n k) :=
  ⟨fun _ o ho => ⟨o, ho, List.prefix_rfl, le_rfl⟩, List.prefix_append _ _⟩

theorem grows_set {n : ℕ} {o o' : Obj} (ho : A.objs[n]? = some o)
    (hwritten : o.written <+: o'.written) (htrimmed : o.trimmed ≤ o'.trimmed) :
    A.Grows { A with objs := A.objs.set n o' } := by
  refine ⟨fun m y hy => ?_, List.prefix_rfl⟩
  by_cases hm : m = n
  · subst hm
    rw [ho] at hy
    cases hy
    exact ⟨o', List.getElem?_set_self (List.getElem?_eq_some_iff.mp ho).1, hwritten, htrimmed⟩
  · exact ⟨y, by rwa [List.getElem?_set_ne (Ne.symm hm)], List.prefix_rfl, le_rfl⟩

theorem grows_write {b : ℕ} {data : List UInt8} (h : A.write b data = some A') : A.Grows A' := by
  obtain ⟨o, ho, heq⟩ := Option.bind_eq_some_iff.mp h
  cases heq
  exact grows_set ho (List.prefix_append _ _) le_rfl

theorem step_grows {op : Op} (h : A.step op = some A') : A.Grows A' := by
  cases op with
  | new =>
    cases h
    exact A.grows_add []
  | newFromData data =>
    cases h
    exact A.grows_add data
  | append b other =>
    obtain ⟨o, -, h⟩ := Option.bind_eq_some_iff.mp h
    exact grows_write h
  | appendRaw b raw => exact grows_write h
  | concat b1 b2 =>
    obtain ⟨o1, -, h⟩ := Option.bind_eq_some_iff.mp h
    obtain ⟨o2, -, h⟩ := Option.bind_eq_some_iff.mp h
    cases h
    exact A.grows_add _
  | sub i1 i2 =>
    obtain ⟨q1, -, h⟩ := Option.bind_eq_some_iff.mp h
    obtain ⟨q2, -, h⟩ := Option.bind_eq_some_iff.mp h
    obtain ⟨o, -, h⟩ := Option.bind_eq_some_iff.mp h
    obtain ⟨o', -, h⟩ := Option.bind_eq_some_iff.mp h
    split at h
    · cases h
      exact A.grows_add _
    · cases h
  | trim b i =>
    obtain ⟨q, -, h⟩ := Option.bind_eq_some_iff.mp h
    obtain ⟨o, hlive, h⟩ := Option.bind_eq_some_iff.mp h
    obtain ⟨ho, hle⟩ := live_eq_some.mp hlive
    split at h
    · rename_i hcond
      cases h
      rw [hcond.1] at ho
      exact grows_set ho List.prefix_rfl hle
    · cases h
  | bytesBegin b =>
    obtain ⟨o, -, h⟩ := Option.bind_eq_some_iff.mp h
    cases h
    exact A.grows_obtain _ _
  | bytesEnd b =>
    obtain ⟨o, -, h⟩ := Option.bind_eq_some_iff.mp h
    cases h
    exact A.grows_obtain _ _
  | incr i =>
    obtain ⟨q, -, h⟩ := Option.bind_eq_some_iff.mp h
    obtain ⟨o, -, h⟩ := Option.bind_eq_some_iff.mp h
    cases h
    exact A.grows_obtain _ _

end Spec

/-- The states a run goes through, both on the heap and in the specification. -/
structure Progress (s₀ : State) (A₀ : Spec) (s : State) (A : Spec) : Prop where
  sim : ∃ xs, Sim xs s A
  iters : s₀.iters <+: s.iters
  grows : A₀.Grows A

theorem Progress.step {s₀ s : State} {A₀ A A' : Spec} {op : Op} (h : Progress s₀ A₀ s A)
    (hstep : A.step op = some A') : ∃ s', Bytes.step s op = some s' ∧ Progress s₀ A₀ s' A' := by
  obtain ⟨xs, hsim⟩ := h.sim
  obtain ⟨s', xs', hs', hsim'⟩ := hsim.step hstep
  exact ⟨s', hs', ⟨xs', hsim'⟩, h.iters.trans (step_iters hs'), h.grows.trans (Spec.step_grows hstep)⟩

theorem Sim.run {xs : List Shape} {s : State} {A A' : Spec} (h : Sim xs s A) (ops : List Op)
    (hrun : Spec.machine.run A ops = some A') :
    ∃ s', machine.run s ops = some s' ∧ Progress s A s' A' :=
  Machine.run_simulates (fun _ _ _ _ hR hstep => hR.step hstep) ops s A A'
    ⟨⟨xs, h⟩, List.prefix_rfl, .refl A⟩ hrun

theorem Progress.deref {xs : List Shape} {s s' : State} {A A' : Spec} (h : Sim xs s A)
    (hprog : Progress s A s' A') {n : ℕ} {i : Iter} {q : Pos} {b : UInt8}
    (hi : s.iters[n]? = some i) (hderef : iteratorDeref s.heap i = some (.ok b))
    (hq : A.iters[n]? = some q) (hlive : (A'.live q).isSome) :
    iteratorDeref s'.heap i = some (.ok b) := by
  obtain ⟨xs', hsim'⟩ := hprog.sim
  obtain ⟨o', hlive'⟩ := Option.isSome_iff_exists.mp hlive
  obtain ⟨ho', hle'⟩ := Spec.live_eq_some.mp hlive'
  have hplaced : Placed xs i q := by
    obtain ⟨hn, rfl⟩ := List.getElem?_eq_some_iff.mp hi
    obtain ⟨hn', rfl⟩ := List.getElem?_eq_some_iff.mp hq
    exact h.placed.get hn hn'
  obtain ⟨x, hx, hpoints⟩ := hplaced
  have hrep := h.world.rep _ x hx
  have hxo : A.objs[q.obj]? = some x.obj := by
    rw [h.spec_eq, List.getElem?_map, hx]
    rfl
  obtain ⟨o₁, ho₁, hwritten, htrimmed⟩ := hprog.grows.objs _ _ hxo
  rw [ho'] at ho₁
  cases ho₁
  have hle : x.trimmed ≤ q.pos := htrimmed.trans hle'
  -- the byte at the position, first in the earlier state
  have hbyte : x.written[q.pos]? = some b := by
    cases hget : x.written[q.pos]? with
    | none =>
      rw [iteratorDeref_end hrep hpoints hle hget] at hderef
      cases hderef
    | some b' =>
      rw [iteratorDeref_spec hrep hpoints hle hget] at hderef
      cases hderef
      rfl
  have hbyte' : o'.written[q.pos]? = some b := getElem?_extends hwritten hbyte
  obtain ⟨i', x', hi', -, rfl, -, hrep', hpoints', hle''⟩ :=
    hsim'.iterator (getElem?_extends hprog.grows.iters hq) hlive'
  rw [getElem?_extends hprog.iters hi] at hi'
  cases hi'
  exact iteratorDeref_spec hrep' hpoints' hle'' hbyte'

theorem start_sim : Sim [] machine.start Spec.machine.start where
  world := ⟨by simp, by simp, by simp⟩
  objs_eq := rfl
  spec_eq := rfl
  placed := .nil

/-- A slice is appended to the object it was taken from, which is then trimmed in the
middle of its first chunk. -/
def sliceOps : List Op :=
  [.newFromData [1, 2, 3], .bytesBegin 0, .incr 0, .bytesEnd 0, .sub 1 2]

def appendOps : List Op :=
  [.append 0 1, .trim 0 1]

end Hilti.Bytes
