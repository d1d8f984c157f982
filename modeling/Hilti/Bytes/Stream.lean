import Hilti.Bytes.Search

/-!
# Searching a stream

A program that receives an object piece by piece and looks for a needle in it calls
`hlt_bytes_find_bytes_at_iter` again and again, each time from the iterator that the
previous call has returned, and may trim the object up to there.  The search finds the
first occurrence as long as `__hlt_bytes_find_byte_from`, which does not see what it finds
in a later chunk, is never sent there.
-/

namespace Hilti.Bytes

open Hilti.Lib

set_option autoImplicit false

/-! ## The program -/

/-- What the program does with the object that it receives. -/
inductive Call where
  | append (other : ℕ)
  | appendRaw (raw : List UInt8)
  | trim
  | find
  deriving DecidableEq

/-- The state of the program: the last of the iterators is the one that the previous call
has returned, and `success` is what it has reported. -/
structure Stream where
  state : State
  success : Bool

/-- One call, for the object number `b` and the needle number `needle`. -/
def Stream.next (b needle fuel : ℕ) (S : Stream) : Call → Option Stream
  | .append other => do
    let s ← step S.state (.append b other)
    some { S with state := s }
  | .appendRaw raw => do
    let s ← step S.state (.appendRaw b raw)
    some { S with state := s }
  | .trim => do
    let s ← step S.state (.trim b (S.state.iters.length - 1))
    some { S with state := s }
  | .find => do
    let i ← S.state.iters.getLast?
    let other ← S.state.objs[needle]?
    let (i, success) ← findBytesAtIter S.state.heap fuel i other
    some ⟨S.state.obtain i, success⟩

def stream (b needle fuel : ℕ) (start : State) : Machine Stream Call where
  start := ⟨start, false⟩
  next := Stream.next b needle fuel

/-- The bytes that a call adds to the object, in a program that has started with the
objects of `A`. -/
def piece (A : Spec) : Call → List UInt8
  | .append other => (A.objs[other]?.map Obj.content).getD []
  | .appendRaw raw => raw
  | _ => []

def pieces (A : Spec) (calls : List Call) : List UInt8 :=
  (calls.map (piece A)).flatten

/-- What is appended is another object. -/
def Call.Foreign (A : Spec) (b : ℕ) : Call → Prop
  | .append other => other ≠ b ∧ other < A.objs.length
  | _ => True

instance (A : Spec) (b : ℕ) : (c : Call) → Decidable (c.Foreign A b)
  | .append _ => inferInstanceAs (Decidable (_ ∧ _))
  | .appendRaw _ => isTrue trivial
  | .trim => isTrue trivial
  | .find => isTrue trivial

instance (needle l : List UInt8) : Decidable (Candidate needle l) :=
  inferInstanceAs (Decidable (_ ∧ _))

/-- From the last iterator on, every chunk before the one in which the needle, or the part
of it that is there already, starts for the first time ends with the first byte of the
needle. -/
def Resumes (needle : List UInt8) (S : Stream) : Prop :=
  ∀ parts ∈ S.state.iters.getLast?.bind (iterParts S.state.heap), ∀ chr ∈ needle.head?,
    ∀ k < parts.flatten.length, FirstAt (Candidate needle) parts.flatten k → Reaches chr parts k

instance (needle : List UInt8) (S : Stream) : Decidable (Resumes needle S) :=
  inferInstanceAs (Decidable (∀ _ ∈ _, _))

/-! ## Candidates -/

section

variable {needle l : List UInt8}

theorem not_candidate_append (hne : l ≠ []) (h : ¬ Candidate needle l) (m : List UInt8) :
    ¬ Candidate needle (l ++ m) := by
  rintro ⟨-, hpre | hpre⟩
  · have hcases := List.prefix_or_prefix_of_prefix hpre (List.prefix_append l m)
    exact h ⟨hne, hcases⟩
  · exact h ⟨hne, .inr ((List.prefix_append l m).trans hpre)⟩

theorem candidate_of_occurrence (hneedle : needle ≠ []) (h : needle <+: l) :
    Candidate needle l := by
  refine ⟨?_, .inl h⟩
  rintro rfl
  exact hneedle (List.prefix_nil.mp h)

theorem no_occurrence_behind {k j : ℕ} (hcand : Candidate needle (l.drop k))
    (hno : ¬ needle <+: l.drop k) (hkj : k ≤ j) : ¬ needle <+: l.drop j := by
  intro hj
  have hpart := hcand.2.resolve_left hno
  have hlt : (l.drop k).length < needle.length := by
    rcases Nat.lt_or_ge (l.drop k).length needle.length with hlt | hge
    · exact hlt
    · have heq := hpart.eq_of_length (Nat.le_antisymm hpart.length_le hge)
      exact absurd (heq ▸ List.prefix_rfl) hno
  have hle := hj.length_le
  simp only [List.length_drop] at hlt hle
  omega

end

/-! ## Steps -/

/-- After the program has received the bytes `received` of the object `b`, from position
`base` on: before the last iterator the needle cannot start. -/
structure Searching (A₀ : Spec) (b base : ℕ) (needle received : List UInt8) (S : Stream)
    (A : Spec) (o : Obj) (pos : ℕ) : Prop where
  sim : ∃ xs, Sim xs S.state A
  obj_eq : A.objs[b]? = some o
  others : ∀ m, m ≠ b → A.objs[m]? = A₀.objs[m]?
  last_eq : A.iters.getLast? = some ⟨b, pos⟩
  trimmed_le : o.trimmed ≤ pos
  base_le : base ≤ pos
  pos_le : pos ≤ o.written.length
  received_eq : o.written.drop base = received
  passed : ∀ j, base ≤ j → j < pos → ¬ Candidate needle (o.written.drop j)

section

variable {A₀ A : Spec} {b base pos : ℕ} {needle received : List UInt8} {S : Stream} {o : Obj}

theorem Searching.iterator (h : Searching A₀ b base needle received S A o pos) :
    ∃ xs i x, Sim xs S.state A ∧ S.state.iters.getLast? = some i ∧ xs[b]? = some x ∧ x.obj = o ∧
      S.state.objs[b]? = some x.first ∧ Rep S.state.heap x ∧ Points x i pos ∧
      A.iters[S.state.iters.length - 1]? = some ⟨b, pos⟩ := by
  obtain ⟨xs, hsim⟩ := h.sim
  have hlen := hsim.placed.length_eq
  have hq : A.iters[S.state.iters.length - 1]? = some ⟨b, pos⟩ := by
    rw [hlen, ← List.getLast?_eq_getElem?]
    exact h.last_eq
  obtain ⟨i, x, hi, hx, hobj, hfirst, hrep, hpoints, -⟩ :=
    hsim.iterator hq (Spec.live_eq_some.mpr ⟨h.obj_eq, h.trimmed_le⟩)
  rw [← List.getLast?_eq_getElem?] at hi
  exact ⟨xs, i, x, hsim, hi, hx, hobj, hfirst, hrep, hpoints, hq⟩

theorem Searching.write (h : Searching A₀ b base needle received S A o pos) {data : List UInt8}
    {s : State} (hsim : ∃ xs, Sim xs s { A with
      objs := A.objs.set b { o with written := o.written ++ data } }) :
    Searching A₀ b base needle (received ++ data) { S with state := s }
      { A with objs := A.objs.set b { o with written := o.written ++ data } }
      { o with written := o.written ++ data } pos where
  sim := hsim
  obj_eq := List.getElem?_set_self (List.getElem?_eq_some_iff.mp h.obj_eq).1
  others m hm := by
    rw [← h.others m hm]
    exact List.getElem?_set_ne (Ne.symm hm)
  last_eq := h.last_eq
  trimmed_le := h.trimmed_le
  base_le := h.base_le
  pos_le := by
    have := h.pos_le
    simp only [List.length_append]
    omega
  received_eq := by
    have hle := h.base_le.trans h.pos_le
    rw [List.drop_append_of_le_length hle, h.received_eq]
  passed j hj hlt := by
    have hle := h.pos_le
    simp only
    rw [List.drop_append_of_le_length (by omega)]
    refine not_candidate_append ?_ (h.passed j hj hlt) data
    simp only [ne_eq, List.drop_eq_nil_iff, not_le]
    omega

theorem Searching.append_raw (h : Searching A₀ b base needle received S A o pos)
    (raw : List UInt8) : ∃ s A' o', step S.state (.appendRaw b raw) = some s ∧
      Searching A₀ b base needle (received ++ raw) { S with state := s } A' o' pos := by
  obtain ⟨xs, hsim⟩ := h.sim
  have hwrite : A.write b raw = some { A with
      objs := A.objs.set b { o with written := o.written ++ raw } } := by
    simp [Spec.write, h.obj_eq]
  obtain ⟨s, xs', hstep, hsim'⟩ := hsim.append_raw hwrite
  exact ⟨s, _, _, hstep, h.write ⟨xs', hsim'⟩⟩

theorem Searching.append (h : Searching A₀ b base needle received S A o pos) {other : ℕ}
    (hne : other ≠ b) (hlt : other < A₀.objs.length) :
    ∃ s A' o', step S.state (.append b other) = some s ∧
      Searching A₀ b base needle (received ++ piece A₀ (.append other)) { S with state := s } A' o'
        pos := by
  obtain ⟨xs, hsim⟩ := h.sim
  have hother : A₀.objs[other]? = some A₀.objs[other] := List.getElem?_eq_getElem hlt
  have hpiece : piece A₀ (.append other) = A₀.objs[other].content := by
    simp [piece, hother]
  have hwrite : A.write b A₀.objs[other].content = some { A with
      objs := A.objs.set b { o with written := o.written ++ A₀.objs[other].content } } := by
    simp [Spec.write, h.obj_eq]
  obtain ⟨s, xs', hstep, hsim'⟩ :=
    hsim.append ((h.others other hne).trans hother) hwrite
  rw [hpiece]
  exact ⟨s, _, _, hstep, h.write ⟨xs', hsim'⟩⟩

theorem Searching.trim (h : Searching A₀ b base needle received S A o pos) :
    ∃ s A' o', step S.state (.trim b (S.state.iters.length - 1)) = some s ∧
      Searching A₀ b base needle received { S with state := s } A' o' pos := by
  obtain ⟨xs, i, x, hsim, hi, -, rfl, hfirst, hrep, hpoints, hq⟩ := h.iterator
  rcases Nat.lt_or_ge pos x.obj.written.length with hlt | hge
  · obtain ⟨s, xs', hstep, hsim'⟩ :=
      hsim.trim hq (Spec.live_eq_some.mpr ⟨h.obj_eq, h.trimmed_le⟩) hlt
    refine ⟨s, _, { x.obj with trimmed := pos }, hstep, ⟨xs', hsim'⟩, ?_, fun m hm => ?_, h.last_eq,
      le_rfl, h.base_le, h.pos_le, h.received_eq, h.passed⟩
    · exact List.getElem?_set_self (List.getElem?_eq_some_iff.mp h.obj_eq).1
    · rw [← h.others m hm]
      exact List.getElem?_set_ne (Ne.symm hm)
  · refine ⟨S.state, A, x.obj, ?_, h⟩
    obtain ⟨i', a, c, p, cs, hnorm, hn⟩ := normalizeIter_spec hrep hpoints h.trimmed_le
    have hend : pos = x.written.length := le_antisymm h.pos_le hge
    rw [List.getLast?_eq_getElem?] at hi
    simp [step, hfirst, hi, bytesTrim, hnorm, hn.isEnd_eq hrep, hend]

theorem Searching.find (h : Searching A₀ b base needle received S A o pos) {other fuel : ℕ} {n : Obj}
    (hne : other ≠ b) (hn : A₀.objs[other]? = some n) (hneedle : n.content = needle)
    (hnil : needle ≠ []) (hf : received.length + needle.length < fuel)
    (hres : Resumes needle S) :
    ∃ S' A' pos', S.next b other fuel .find = some S' ∧
      Searching A₀ b base needle received S' A' o pos' ∧
      (S'.success = true ↔ needle <+: o.written.drop pos') ∧
      (¬ Candidate needle (o.written.drop pos') → pos' = o.written.length) := by
  obtain ⟨xs, i, x, hsim, hi, hx, rfl, hfirst, hrep, hpoints, hq⟩ := h.iterator
  obtain ⟨y, -, rfl, hother, hrepy⟩ := hsim.object ((h.others other hne).trans hn)
  obtain ⟨chr, rest, hcons⟩ := List.exists_cons_of_ne_nil hnil
  have hchr : needle.head? = some chr := by rw [hcons]; rfl
  have hempty : isEmpty S.state.heap y.first = some (decide (y.obj.content = [])) := hrepy.isEmpty_eq
  obtain ⟨first, a', c', p', cs', hbegin, h'⟩ := bytesBegin_normal hrepy
  have hlt : y.trimmed < y.written.length := by
    by_contra hge
    exact hnil (hneedle ▸ List.drop_eq_nil_iff.mpr (not_lt.mp hge))
  have hbyte : byteAt S.state.heap first = some chr := by
    rw [h'.byteAt_eq hlt, ← List.getElem?_eq_getElem hlt, ← List.head?_drop, ← hchr, ← hneedle]
    rfl
  obtain ⟨j, a, c, p, cs, hnorm, hj⟩ := normalizeIter_spec hrep hpoints h.trimmed_le
  have hlen : x.written.length - pos + needle.length < fuel := by
    have hrec := congrArg List.length h.received_eq
    have := h.base_le
    rw [List.length_drop] at hrec
    have hobj : x.obj.written = x.written := rfl
    rw [hobj] at hrec
    omega
  obtain ⟨i', r, a'', c'', p'', cs'', hrun, hi', hout⟩ :=
    findAtIterLoop_spec hrep hrepy hneedle hchr fuel hj hlen
  have hflat : (partsFrom c j.cur cs).flatten = x.written.drop pos := hj.parts_flatten
  have hparts : iterParts S.state.heap i = some (partsFrom c j.cur cs) := by
    rw [← hj.iterParts_eq hrep]
    simp [iterParts, hnorm, hj.normalize hrep]
  -- the outcome is the first candidate, or there is none
  have hfirstAt : FirstAt (Candidate needle) (x.written.drop pos) r ∨
      ((∀ k, ¬ Candidate needle ((x.written.drop pos).drop k)) ∧
        r = (x.written.drop pos).length) := by
    unfold Outcome at hout
    rw [hflat] at hout
    refine hout.imp (fun h => h.1) fun hmissing => ⟨fun k hk => ?_, hmissing.2⟩
    obtain ⟨m, hm⟩ := exists_firstAt hk
    have hinside : m < (x.written.drop pos).length := by
      have := hm.1.1
      rwa [ne_eq, List.drop_eq_nil_iff, not_le] at this
    refine hmissing.1 m hm (hres (partsFrom c j.cur cs) ?_ chr hchr m ?_ ?_)
    · rw [hi]
      exact hparts
    · rwa [hflat]
    · rwa [hflat]
  refine ⟨⟨S.state.obtain i', decide (needle <+: x.written.drop (pos + r))⟩, A.obtain b (pos + r),
    pos + r, ?_, ⟨⟨xs, ?_⟩, h.obj_eq, h.others, ?_, ?_, ?_, hi'.pos_le, h.received_eq, ?_⟩,
    by simp [Shape.obj], ?_⟩
  · have hfalse : decide (y.obj.content = []) = false := by
      rw [hneedle]
      exact decide_eq_false hnil
    simp only [Stream.next, hi, hother, findBytesAtIter, hempty, hfalse, hbegin, hbyte, hnorm, hrun,
      Option.bind_eq_bind, Option.bind_some]
    rfl
  · exact hsim.obtain_iterator hx hi'.points
  · simp [Spec.obtain]
  · exact h.trimmed_le.trans (Nat.le_add_right _ _)
  · exact h.base_le.trans (Nat.le_add_right _ _)
  · intro k hk hlt'
    rcases Nat.lt_or_ge k pos with hkpos | hkpos
    · exact h.passed k hk hkpos
    · have hsum : x.obj.written.drop k = (x.written.drop pos).drop (k - pos) := by
        rw [List.drop_drop, Nat.add_sub_cancel' hkpos]
        rfl
      rw [hsum]
      rcases hfirstAt with hmin | ⟨hnone, -⟩
      · exact hmin.2 _ (by omega)
      · exact hnone _
  · intro hcand
    rcases hfirstAt with hmin | ⟨-, hr⟩
    · have := hmin.1
      rw [List.drop_drop] at this
      exact absurd this hcand
    · rw [List.length_drop] at hr
      have := h.pos_le
      have hobj : x.obj.written = x.written := rfl
      rw [hobj] at this ⊢
      omega

/-! ## Runs -/

theorem pieces_cons (c : Call) (calls : List Call) :
    pieces A₀ (c :: calls) = piece A₀ c ++ pieces A₀ calls := by
  simp [pieces]

theorem Searching.next (h : Searching A₀ b base needle received S A o pos) {other fuel : ℕ} {n : Obj}
    (hne : other ≠ b) (hn : A₀.objs[other]? = some n) (hneedle : n.content = needle)
    (hnil : needle ≠ []) (hf : received.length + needle.length < fuel) {c : Call}
    (hforeign : c.Foreign A₀ b) (hres : c = .find → Resumes needle S) :
    ∃ S' A' o' pos', S.next b other fuel c = some S' ∧
      Searching A₀ b base needle (received ++ piece A₀ c) S' A' o' pos' := by
  cases c with
  | append m =>
    obtain ⟨s, A', o', hstep, h'⟩ := h.append hforeign.1 hforeign.2
    exact ⟨_, A', o', pos, by simp [Stream.next, hstep], h'⟩
  | appendRaw raw =>
    obtain ⟨s, A', o', hstep, h'⟩ := h.append_raw raw
    exact ⟨_, A', o', pos, by simp [Stream.next, hstep], h'⟩
  | trim =>
    obtain ⟨s, A', o', hstep, h'⟩ := h.trim
    refine ⟨_, A', o', pos, by simp only [Stream.next, hstep]; rfl, ?_⟩
    simpa [piece] using h'
  | find =>
    obtain ⟨S', A', pos', hnext, h', -⟩ := h.find hne hn hneedle hnil hf (hres rfl)
    refine ⟨S', A', o, pos', hnext, ?_⟩
    simpa [piece] using h'

theorem Searching.run {other fuel : ℕ} {n : Obj} {s : State} (hne : other ≠ b)
    (hn : A₀.objs[other]? = some n) (hneedle : n.content = needle) (hnil : needle ≠ [])
    (calls : List Call) :
    ∀ {received : List UInt8} {S : Stream} {A : Spec} {o : Obj} {pos : ℕ},
      Searching A₀ b base needle received S A o pos →
      (received ++ pieces A₀ calls).length + needle.length < fuel →
      (∀ c ∈ calls, c.Foreign A₀ b) →
      (stream b other fuel s).Along (fun S c => c = .find → Resumes needle S) S calls →
      ∃ S' A' o' pos', (stream b other fuel s).run S calls = some S' ∧
        Searching A₀ b base needle (received ++ pieces A₀ calls) S' A' o' pos' := by
  induction calls with
  | nil =>
    intro received S A o pos h _ _ _
    refine ⟨S, A, o, pos, rfl, ?_⟩
    rwa [pieces, List.map_nil, List.flatten_nil, List.append_nil]
  | cons c calls ih =>
    intro received S A o pos h hf hforeign halong
    rw [pieces_cons, ← List.append_assoc] at hf ⊢
    have hf₁ : received.length + needle.length < fuel := by
      simp only [List.length_append] at hf
      omega
    obtain ⟨S₁, A₁, o₁, pos₁, hnext, h₁⟩ :=
      h.next hne hn hneedle hnil hf₁ (hforeign c (by simp)) halong.1
    obtain ⟨S', A', o', pos', hrun, h'⟩ :=
      ih h₁ hf (fun c' hc' => hforeign c' (by simp [hc'])) (halong.2 S₁ hnext)
    refine ⟨S', A', o', pos', ?_, h'⟩
    have hnext' : (stream b other fuel s).next S c = some S₁ := hnext
    rw [Machine.run_cons, hnext']
    exact hrun

theorem Searching.reports (h : Searching A₀ b base needle received S A o pos)
    (hnil : needle ≠ []) (hsuccess : S.success = true ↔ needle <+: o.written.drop pos)
    (hend : ¬ Candidate needle (o.written.drop pos) → pos = o.written.length) :
    (S.success = true ↔ ∃ k, needle <+: received.drop k) ∧
      (S.success = true → FirstAt (fun l => needle <+: l) received (pos - base)) := by
  have hdrop : ∀ k, received.drop k = o.written.drop (base + k) := by
    intro k
    rw [← h.received_eq, List.drop_drop]
  have hpos : base + (pos - base) = pos := Nat.add_sub_cancel' h.base_le
  have hbefore : ∀ k, base + k < pos → ¬ needle <+: received.drop k := by
    intro k hk hpre
    rw [hdrop] at hpre
    exact h.passed (base + k) (by omega) hk (candidate_of_occurrence hnil hpre)
  constructor
  · rw [hsuccess]
    constructor
    · intro hpre
      refine ⟨pos - base, ?_⟩
      rwa [hdrop, hpos]
    · rintro ⟨k, hk⟩
      by_contra hno
      have hle : pos ≤ base + k := not_lt.mp fun hlt => hbefore k hlt hk
      rw [hdrop] at hk
      by_cases hcand : Candidate needle (o.written.drop pos)
      · exact no_occurrence_behind hcand hno hle hk
      · rw [List.drop_of_length_le (by rw [← hend hcand]; exact hle)] at hk
        exact hnil (List.prefix_nil.mp hk)
  · intro htrue
    refine ⟨?_, fun k hk => hbefore k (by omega)⟩
    rw [hdrop, hpos]
    exact hsuccess.mp htrue

end

/-- Whatever has been received in whatever pieces, and however often the program has searched
and trimmed before, a search succeeds exactly if the needle occurs in the bytes received so
far, and then its iterator stands at the first occurrence. -/
theorem stream_finds_first (ops : List Op) (A : Spec)
    (hrun : Spec.machine.run Spec.machine.start ops = some A) (b needle : ℕ) (o n : Obj)
    (ho : A.objs[b]? = some o) (hn : A.objs[needle]? = some n) (hne : needle ≠ b)
    (hnil : n.content ≠ []) :
    ∃ s s₁, machine.run machine.start ops = some s ∧ step s (.bytesBegin b) = some s₁ ∧
      ∀ (fuel : ℕ) (calls : List Call), (∀ c ∈ calls, c.Foreign A b) →
        (o.content ++ pieces A calls).length + n.content.length < fuel →
        (stream b needle fuel s₁).Along (fun S c => c = .find → Resumes n.content S) ⟨s₁, false⟩
          (calls ++ [.find]) →
        ∃ S, (stream b needle fuel s₁).run ⟨s₁, false⟩ (calls ++ [.find]) = some S ∧
          (S.success = true ↔ ∃ k, n.content <+: (o.content ++ pieces A calls).drop k) ∧
          (S.success = true → ∃ i k, S.state.iters.getLast? = some i ∧
            FirstAt (fun l => n.content <+: l) (o.content ++ pieces A calls) k ∧
            iteratorIndex S.state.heap i = some ((o.trimmed + k : ℕ) : ℤ)) := by
  obtain ⟨s, hs, hprog⟩ := start_sim.run ops hrun
  obtain ⟨xs, hsim⟩ := hprog.sim
  obtain ⟨x, hx, rfl, hfirst, hrep⟩ := hsim.object ho
  obtain ⟨i, hbegin, hi⟩ := bytesBegin_spec hrep
  refine ⟨s, s.obtain i, hs, by simp [step, hfirst, hbegin], fun fuel calls hforeign hf halong => ?_⟩
  have hstart : Searching A b x.trimmed n.content x.obj.content ⟨s.obtain i, false⟩
      (A.obtain b x.trimmed) x.obj x.trimmed := by
    refine ⟨⟨xs, hsim.obtain_iterator hx hi⟩, ho, fun _ _ => rfl, by simp [Spec.obtain], le_rfl,
      le_rfl, hrep.trimmed_le, rfl, fun j hj hlt => ?_⟩
    omega
  obtain ⟨halong₁, halong₂⟩ := Machine.along_append halong
  obtain ⟨S₁, A₁, o₁, pos₁, hrun₁, h₁⟩ := hstart.run hne hn rfl hnil calls hf hforeign halong₁
  obtain ⟨S', A', pos', hnext, h', hsuccess, hend⟩ :=
    h₁.find hne hn rfl hnil hf ((halong₂ S₁ hrun₁).1 rfl)
  obtain ⟨hiff, hfirstAt⟩ := h'.reports hnil hsuccess hend
  refine ⟨S', ?_, hiff, fun htrue => ?_⟩
  · have hnext' : (stream b needle fuel (s.obtain i)).next S₁ .find = some S' := hnext
    rw [Machine.run_append, hrun₁, Option.bind_some, Machine.run_cons, hnext']
    rfl
  · obtain ⟨-, i', x', -, hi', -, rfl, -, hrep', hpoints', -⟩ := h'.iterator
    refine ⟨i', pos' - x.trimmed, hi', hfirstAt htrue, ?_⟩
    have hindex := iteratorIndex_spec hrep' hpoints' h'.trimmed_le
    rwa [show x.obj.trimmed + (pos' - x.trimmed) = pos' from Nat.add_sub_cancel' h'.base_le]

/-- The haystack `xa`, of which more is to come, and the needle `ab`. -/
def straddlingOps : List Op :=
  [.newFromData [120, 97], .newFromData [97, 98]]

/-- The needle lies across two pieces, and what comes before it has been trimmed. -/
theorem stream_finds_straddling :
    ∃ s s₁ S i, machine.run machine.start straddlingOps = some s ∧
      step s (.bytesBegin 0) = some s₁ ∧
      (stream 0 1 10 s₁).run ⟨s₁, false⟩ [.find, .trim, .appendRaw [98, 97], .find] = some S ∧
      S.success = true ∧ S.state.iters.getLast? = some i ∧
      iteratorIndex S.state.heap i = some 1 := by
  obtain ⟨s, s₁, hs, hs₁, hall⟩ := stream_finds_first straddlingOps _ rfl 0 1 _ _ rfl rfl
    (by decide) (by decide)
  have hs' := hs
  have hs₁' := hs₁
  cases hs
  cases hs₁
  obtain ⟨S, hS, hiff, hpos⟩ := hall 10 [.find, .trim, .appendRaw [98, 97]] (by decide) (by decide)
    (by decide +kernel)
  have hsuccess : S.success = true := hiff.mpr ⟨1, by decide⟩
  obtain ⟨i, k, hi, hk, hindex⟩ := hpos hsuccess
  have hfirst : FirstAt (fun l => ([97, 98] : List UInt8) <+: l) [120, 97, 98, 97] 1 := by decide
  have hone : k = 1 := hk.unique hfirst
  subst hone
  exact ⟨_, _, S, i, hs', hs₁', hS, hsuccess, hi, hindex⟩

/-- The haystack `ab`, of which more is to come, and the needle `abc`. -/
def resumedOps : List Op :=
  [.newFromData [97, 98], .newFromData [97, 98, 99]]

/-- After `ab` has come to nothing, an occurrence in the second piece is not found. -/
theorem stream_misses :
    ∃ s s₁ S, machine.run machine.start resumedOps = some s ∧
      step s (.bytesBegin 0) = some s₁ ∧
      (stream 0 1 20 s₁).run ⟨s₁, false⟩ [.find, .appendRaw [120, 97, 98, 99], .find] = some S ∧
      ¬ (S.success = true ↔
        ∃ k, ([97, 98, 99] : List UInt8) <+: [97, 98, 120, 97, 98, 99].drop k) := by
  refine ⟨_, _, _, rfl, rfl, rfl, fun h => ?_⟩
  have hfalse := h.mpr ⟨3, by decide⟩
  revert hfalse
  decide +kernel

end Hilti.Bytes
