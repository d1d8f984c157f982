import Mathlib.Data.List.TakeWhile
import Hilti.Sink.Deliver

/-!
# The chunk list over whole runs

Every operation of a sink keeps its chunk list well formed, except in three
situations in which `__new_block` and `__add_and_check` go wrong; `Safe` says that an
operation is in none of them.
-/

namespace Hilti.Sink

open Hilti.Lib Hilti.Lib.LinkedList

set_option autoImplicit false

/-- The chunks are linked in both directions between `first_chunk` and `last_chunk`,
not empty, in order and disjoint, and none of them lies before `trim_rseq`. -/
def WellFormed (s : SpicySink) : Prop :=
  ∃ l, s.chunks.Represents l ∧ Ordered (vals l) ∧ ∀ b ∈ vals l, s.trimRseq < b.rupper

/-- The arguments of an operation, and the positions it adds, fit 64 bits; the length of
a bytes object is an `int64_t`. -/
def InRange (s : SpicySink) : Op → Prop
  | .write data seq =>
    seq < 2 ^ 64 ∧ data.length < 2 ^ 63 ∧ seq - s.initialSeq + data.length < 2 ^ 64
  | .append data => data.length < 2 ^ 63 ∧ s.curRseq + data.length < 2 ^ 64
  | .gap seq len => seq < 2 ^ 64 ∧ seq - s.initialSeq + len < 2 ^ 64
  | .skip seq => seq < 2 ^ 64
  | .trim seq => seq < 2 ^ 64
  | .close => True

/-- A block that is buffered: if nothing is buffered, its length does not wrap around
when it is counted from `trim_rseq` on; otherwise the lengths of the chunks it
overlaps compare as `int64_t` the way they are, and a gap does not start in front
of a chunk that it overlaps. -/
def SafeBlock (s : SpicySink) (data : Option (List UInt8)) (rseq len : ℕ) : Prop :=
  len = 0 ∨ (rseq = s.curRseq ∧ s.chunks.first = none) ∨ rseq + len ≤ s.trimRseq ∨
    (s.chunks.first = none ∧ (rseq < s.trimRseq → s.trimRseq + len < 2 ^ 64)) ∨
    (s.chunks.first ≠ none ∧
      LengthsFit s.chunks.toList (max rseq s.trimRseq) (rseq + len) ∧
      NoOverhang s.chunks.toList (max rseq s.trimRseq) (rseq + len) data)

def Safe (s : SpicySink) : Op → Prop
  | .write data seq =>
    s.initialSeq ≤ seq → SafeBlock s (some data) (seq - s.initialSeq) data.length
  | .append data => SafeBlock s (some data) s.curRseq data.length
  | .gap seq len => s.initialSeq ≤ seq → SafeBlock s none (seq - s.initialSeq) len
  | _ => True

instance (s : SpicySink) : (op : Op) → Decidable (InRange s op)
  | .write _ _ => inferInstanceAs (Decidable (_ ∧ _))
  | .append _ => inferInstanceAs (Decidable (_ ∧ _))
  | .gap _ _ => inferInstanceAs (Decidable (_ ∧ _))
  | .skip _ => inferInstanceAs (Decidable (_ < _))
  | .trim _ => inferInstanceAs (Decidable (_ < _))
  | .close => isTrue trivial

instance (s : SpicySink) (data : Option (List UInt8)) (rseq len : ℕ) :
    Decidable (SafeBlock s data rseq len) :=
  inferInstanceAs (Decidable (_ ∨ _))

instance (s : SpicySink) : (op : Op) → Decidable (Safe s op)
  | .write _ _ => inferInstanceAs (Decidable (_ → _))
  | .append _ => inferInstanceAs (Decidable (SafeBlock ..))
  | .gap _ _ => inferInstanceAs (Decidable (_ → _))
  | .skip _ => isTrue trivial
  | .trim _ => isTrue trivial
  | .close => isTrue trivial

section

variable {env : Env} {s : SpicySink}

theorem Buffers.of_excpt {l : List (ℕ × Block)} (h : Buffers s l) (e : Bool) :
    Buffers { s with excpt := e } l :=
  ⟨h.represents, h.ordered, h.reaches, h.autoTrim_eq, h.connected⟩

theorem Buffers.first_eq_none {l : List (ℕ × Block)} (h : Buffers s l) :
    s.chunks.first = none ↔ l = [] := by
  rw [h.represents.first_eq]
  cases l <;> simp [headAddr]

/-! ## Adding a block -/

/-- The part of a new block that does not lie before `trim_rseq`. -/
def clip (s : SpicySink) (data : Option (List UInt8)) (rseq : ℕ) : Option (List UInt8) :=
  data.map fun d => d.drop (s.trimRseq - rseq)

/-- The last part of `__new_block`, for the chunk that has been added. -/
def deliverFrom (env : Env) (fuel : ℕ) (c : ℕ) (s : SpicySink) : Option SpicySink := do
  let cell ← s.chunks.heap c
  if cell.val.rseq > s.lastReassemRseq ∨ cell.val.rupper ≤ s.lastReassemRseq then some s
  else tryDeliver env fuel (some c) s

theorem newBlock_buffer {fuel rseq len : ℕ} {data : Option (List UInt8)} (hlen : len ≠ 0)
    (hfast : ¬ (rseq = s.curRseq ∧ s.chunks.first = none)) (hu : rseq + len < 2 ^ 64)
    (htrim : s.trimRseq < rseq + len) (hdata : ∀ d, data = some d → d.length < 2 ^ 63 ∧
      d.length = len) :
    newBlock env fuel data rseq len s =
      (match s.chunks.first with
      | none => some ({ s with chunks := { s.chunks.alloc ⟨max rseq s.trimRseq,
          uint64 (max rseq s.trimRseq + len), clip s data rseq⟩ with
            first := some s.chunks.fresh, last := some s.chunks.fresh } }, some s.chunks.fresh)
      | some first => addAndCheck env fuel first (max rseq s.trimRseq) (rseq + len)
          (clip s data rseq) s).bind fun (s, c) => c.bind fun c => deliverFrom env fuel c s := by
  have hupper : uint64 (rseq + len) = rseq + len := uint64_of_lt hu
  have hadd : rseq < s.trimRseq →
      addInt64 rseq (int64 (sub64 s.trimRseq rseq)) = max rseq s.trimRseq := by
    intro hr
    rw [sub64_of_le hr.le (by omega), addInt64_int64 (by omega)]
    omega
  by_cases hr : rseq < s.trimRseq
  · cases data with
    | none =>
      simp only [newBlock, if_neg hlen, if_neg hfast, hupper, if_neg (not_le.mpr htrim),
        Option.bind_eq_bind, if_pos hr, hadd hr, clip, Option.map_none, Option.bind_some]
      cases s.chunks.first <;> rfl
    | some d =>
      have hd := hdata d rfl
      have hdrop : bytesDrop (int64 (sub64 s.trimRseq rseq)) d =
          some (d.drop (s.trimRseq - rseq)) := by
        rw [sub64_of_le hr.le (by omega), bytesDrop_int64 (.inr (by omega))]
      simp only [newBlock, if_neg hlen, if_neg hfast, hupper, if_neg (not_le.mpr htrim),
        Option.bind_eq_bind, if_pos hr, hadd hr, hdrop, clip, Option.map_some, Option.bind_some]
      cases s.chunks.first <;> rfl
  · have hclip : clip s data rseq = data := by
      cases data <;> simp [clip, Nat.sub_eq_zero_of_le (not_lt.mp hr)]
    rw [hclip, max_eq_left (not_lt.mp hr)]
    simp only [newBlock, if_neg hlen, if_neg hfast, hupper, if_neg (not_le.mpr htrim),
      Option.bind_eq_bind, if_neg hr, Option.bind_some]
    cases s.chunks.first <;> rfl

theorem deliverFrom_spec (henv : env.Calm) {pre suf : List (ℕ × Block)} {c : ℕ} {b : Block}
    {fuel : ℕ} (h : Buffers s (pre ++ (c, b) :: suf))
    (hf : 2 * (pre ++ (c, b) :: suf).length + s.head.length + 1 < fuel) :
    ∃ s' l, deliverFrom env fuel c s = some s' ∧ Buffers s' l := by
  simp only [deliverFrom, h.represents.heap_eq, Option.bind_eq_bind, Option.bind_some]
  split
  · exact ⟨s, _, rfl, h⟩
  · refine tryDeliver_spec henv ((c, b) :: suf) pre fuel s h ?_
    simp only [List.length_append, List.length_cons] at hf ⊢
    omega

theorem clip_dataOk {data : Option (List UInt8)} {rseq len : ℕ} (hlt : s.trimRseq < rseq + len)
    (hdata : ∀ d, data = some d → d.length < 2 ^ 63 ∧ d.length = len) :
    DataOk (max rseq s.trimRseq) (rseq + len) (clip s data rseq) := by
  cases data with
  | none => trivial
  | some d =>
    have hd := hdata d rfl
    right
    simp only [List.length_drop]
    omega

theorem newBlock_spec (henv : env.Calm) {fuel : ℕ} {l : List (ℕ × Block)} (h : Buffers s l)
    {data : Option (List UInt8)} {rseq len : ℕ} (hu : rseq + len < 2 ^ 64)
    (hdata : ∀ d, data = some d → d.length < 2 ^ 63 ∧ d.length = len)
    (hsafe : SafeBlock s data rseq len) (hf : 4 * l.length + s.head.length + 10 ≤ fuel) :
    ∃ s' l', newBlock env fuel data rseq len s = some s' ∧ Buffers s' l' := by
  by_cases hlen : len = 0
  · exact ⟨s, l, by simp [newBlock, hlen], h⟩
  by_cases hfast : rseq = s.curRseq ∧ s.chunks.first = none
  · -- nothing is buffered, and the block is the next one
    obtain rfl := h.first_eq_none.mp hfast.2
    set b : Block := ⟨rseq, uint64 (rseq + len), data⟩ with hb
    have hnew : newBlock env fuel data rseq len s =
        (deliverChunk env fuel b s).bind fun r => some r.1 := by
      simp only [newBlock, if_neg hlen, if_pos hfast, Option.bind_eq_bind, hb]
    have hnil : ∀ s' : SpicySink, s'.chunks.Represents [] → s'.autoTrim = true →
        Connected s'.head → Buffers s' [] :=
      fun s' hrep hauto hconn => ⟨hrep, Ordered.nil, by simp, hauto, hconn⟩
    rw [hnew]
    cases hd : b.data with
    | some d =>
      obtain ⟨s₁, s', -, hfed, heq, hframe, -, hrep, -⟩ := deliverChunk_data henv hd h.represents
        h.autoTrim_eq h.connected (show _ < fuel by simp; omega) (by omega)
      refine ⟨s', [], by rw [heq]; rfl, hnil s' hrep ?_ ?_⟩
      · exact hframe.autoTrim_eq.trans (hfed.autoTrim_eq.trans h.autoTrim_eq)
      · exact hframe.head_eq ▸ hfed.connected h.connected
    | none =>
      obtain ⟨s', heq, hcase⟩ := deliverChunk_gap env hd h.represents h.autoTrim_eq
        (show _ < fuel by simp; omega)
      rcases hcase with ⟨-, rfl⟩ | ⟨hframe, -, hrep⟩
      · exact ⟨s', [], by rw [heq]; rfl, h⟩
      · refine ⟨s', [], by rw [heq]; rfl, hnil s' hrep ?_ ?_⟩
        · exact hframe.autoTrim_eq.trans h.autoTrim_eq
        · rw [hframe.head_eq]
          exact h.connected
  by_cases hold : rseq + len ≤ s.trimRseq
  · exact ⟨s, l, by simp [newBlock, hlen, hfast, uint64_of_lt hu, hold], h⟩
  have hlt : s.trimRseq < rseq + len := not_le.mp hold
  rw [newBlock_buffer hlen hfast hu hlt hdata]
  rcases hsafe with hsafe | hsafe | hsafe | ⟨hfirst, hwrap⟩ | ⟨hfirst, hfit, hover⟩
  · exact absurd hsafe hlen
  · exact absurd hsafe hfast
  · exact absurd hsafe hold
  · -- the first chunk
    obtain rfl := h.first_eq_none.mp hfirst
    have hupper : max rseq s.trimRseq + len < 2 ^ 64 := by omega
    have hbuf : Buffers { s with chunks := { s.chunks.alloc ⟨max rseq s.trimRseq,
        uint64 (max rseq s.trimRseq + len), clip s data rseq⟩ with
          first := some s.chunks.fresh, last := some s.chunks.fresh } }
        ([] ++ (s.chunks.fresh, ⟨max rseq s.trimRseq, uint64 (max rseq s.trimRseq + len),
          clip s data rseq⟩) :: []) := by
      rw [uint64_of_lt hupper]
      refine ⟨h.represents.singleton _, Ordered.nil.cons ⟨?_, hupper⟩ (by simp), ?_,
        h.autoTrim_eq, h.connected⟩
      · change max rseq s.trimRseq < max rseq s.trimRseq + len
        omega
      · intro b hb
        obtain rfl : b = _ := by simpa [vals] using hb
        change s.trimRseq < max rseq s.trimRseq + len
        omega
    rw [hfirst]
    refine deliverFrom_spec henv hbuf ?_
    simp only [List.nil_append, List.length_cons, List.length_nil] at hf ⊢
    omega
  · -- the block is inserted into the list
    obtain ⟨⟨a, v⟩, suf, rfl⟩ := List.exists_cons_of_ne_nil (mt h.first_eq_none.mpr hfirst)
    have hfirst' : s.chunks.first = some a := h.represents.first_eq
    have hlist : s.chunks.toList = vals ((a, v) :: suf) := h.represents.toList_eq
    rw [hlist] at hfit hover
    have hreach : reaching ((a, v) :: suf) (max rseq s.trimRseq) ≤ suf.length + 1 := by
      refine (List.length_filter_le _ _).trans ?_
      simp
    simp only [List.length_cons] at hf
    obtain ⟨s', c, suf', hadd, hins⟩ := addAndCheck_spec env fuel [] suf a v
      (max rseq s.trimRseq) (rseq + len) (clip s data rseq) s h.represents h.ordered (by omega) hu
      (clip_dataOk hlt hdata) hfit (by omega)
    have hover' : NoOverhang (vals ((a, v) :: suf)) (max rseq s.trimRseq) (rseq + len)
        (clip s data rseq) := by
      cases data with
      | none => exact hover
      | some d => trivial
    obtain ⟨l₁, c', w, l₂, rfl, rfl, -⟩ := hins.returns hover'
    have hord : Ordered (vals (l₁ ++ (c', w) :: l₂)) := by
      rw [hins.vals_eq]
      exact insertBlock_ordered h.ordered (by omega) hu
    have hbuf : Buffers s' (l₁ ++ (c', w) :: l₂) := by
      refine ⟨hins.represents, hord, fun b hb => ?_,
        hins.frame.autoTrim_eq.trans h.autoTrim_eq, hins.frame.head_eq ▸ h.connected⟩
      rw [hins.trimRseq_eq]
      have hok := (hord.ok b hb).1
      rw [hins.vals_eq] at hb
      rcases insertBlock_mem h.ordered hb with hb | hb
      · exact h.reaches b hb
      · omega
    have hcount : (l₁ ++ (c', w) :: l₂).length ≤ 2 * (suf.length + 1) + 1 := by
      have := insertBlock_length (vals ((a, v) :: suf)) (max rseq s.trimRseq) (rseq + len)
        (clip s data rseq)
      rw [← hins.vals_eq] at this
      simpa using this
    rw [hfirst']
    simp only [hadd, Option.bind_some]
    exact deliverFrom_spec henv hbuf (by rw [hins.frame.head_eq]; omega)

/-! ## The other operations -/

theorem finishParser_spec (henv : env.Calm) {l : List (ℕ × Block)} (h : Buffers s l) {p : ParserState}
    {ps : List ParserState} (hp : s.head = p :: ps) :
    ∃ s', finishParser env 0 s = some s' ∧ s'.head = ps ∧ Buffers s' l := by
  have hconn : Connected ps := fun q hq => h.connected q (by simp [hp, hq])
  have hgo : ∀ e, Buffers { s with head := ps, excpt := e } l :=
    fun e => ⟨h.represents, h.ordered, h.reaches, h.autoTrim_eq, hconn⟩
  by_cases hfed : p.fed ≠ [] ∧ p.resume = true
  · cases hfin : env.finish p.id p.fed with
    | yield => exact absurd hfin (henv.finish_ne _ _)
    | disabled => exact ⟨_, by simp [finishParser, hp, hfed, hfin], rfl, hgo s.excpt⟩
    | done => exact ⟨_, by simp [finishParser, hp, hfed, hfin], rfl, hgo false⟩
    | error => exact ⟨_, by simp [finishParser, hp, hfed, hfin], rfl, hgo true⟩
  · exact ⟨_, by simp [finishParser, hp, hfed], rfl, hgo s.excpt⟩

theorem finishAll_spec (henv : env.Calm) {l : List (ℕ × Block)} (ps : List ParserState) :
    ∀ (fuel : ℕ) (s : SpicySink), Buffers s l → s.head = ps → ps.length < fuel →
    ∃ s', finishAll env fuel s = some s' ∧ Buffers s' l := by
  induction ps with
  | nil =>
    intro fuel s h hps hf
    obtain ⟨fuel, rfl⟩ : ∃ n, fuel = n + 1 := ⟨fuel - 1, by simp at hf; omega⟩
    exact ⟨s, by simp [finishAll, hps], h⟩
  | cons p ps ih =>
    intro fuel s h hps hf
    obtain ⟨fuel, rfl⟩ : ∃ n, fuel = n + 1 := ⟨fuel - 1, by simp at hf; omega⟩
    obtain ⟨s₁, hfin, hps₁, h₁⟩ := finishParser_spec henv h hps
    obtain ⟨s', hall, h'⟩ := ih fuel s₁ h₁ hps₁ (by simpa using hf)
    exact ⟨s', by simp [finishAll, hps, hfin, hall], h'⟩

theorem sinkClose_spec (henv : env.Calm) {fuel : ℕ} {l : List (ℕ × Block)} (h : Buffers s l)
    (hl : l.length < fuel) (hf : s.head.length < fuel) :
    ∃ s', sinkClose env fuel s = some s' ∧ Buffers s' [] := by
  obtain ⟨s₁, hfin, h₁⟩ := finishAll_spec henv s.head fuel { s with filter := none }
    ⟨h.represents, h.ordered, h.reaches, h.autoTrim_eq, h.connected⟩ rfl hf
  obtain ⟨s₂, htrim, hrep, hframe, -, -⟩ :=
    trim_spec env (2 ^ 64 - 1) h₁.represents hl
  have hall : l.dropWhile (endsBy (2 ^ 64 - 1)) = [] := by
    rw [List.dropWhile_eq_nil_iff]
    intro e he
    have := (h.ordered.ok e.2 (List.mem_map_of_mem he)).2
    simp only [endsBy, decide_eq_true_eq]
    omega
  rw [hall] at hrep
  have hfirst : s₂.chunks.first = none := hrep.first_eq
  have hlast : s₂.chunks.last = none := hrep.last_eq
  refine ⟨{ s₂ with curRseq := 0, lastReassemRseq := 0, trimRseq := 0 }, ?_, hrep, Ordered.nil,
    by simp, ?_, ?_⟩
  · simp only [sinkClose, hfin, htrim, Option.bind_eq_bind, Option.bind_some, hfirst, hlast,
      and_self, if_true]
  · exact hframe.autoTrim_eq.trans h₁.autoTrim_eq
  · rw [hframe.head_eq]
    exact h₁.connected

variable (env) in
theorem trim_buffers {fuel : ℕ} (r : ℕ) {l : List (ℕ × Block)} (h : Buffers s l) (hl : l.length < fuel) :
    ∃ s', trim env fuel r s = some s' ∧ Buffers s' (l.dropWhile (endsBy r)) ∧
      s'.head = s.head := by
  obtain ⟨s', htrim, hrep, hframe, hr, -⟩ := trim_spec env r h.represents hl
  exact ⟨s', htrim, .of_dropWhile h.ordered hrep hr (hframe.autoTrim_eq.trans h.autoTrim_eq)
    (hframe.head_eq ▸ h.connected), hframe.head_eq⟩

theorem skip_spec (henv : env.Calm) {fuel r : ℕ} {l : List (ℕ × Block)} (h : Buffers s l)
    (hf : 2 * l.length + s.head.length + 1 < fuel) :
    ∃ s' l', skip env fuel r s = some s' ∧ Buffers s' l' := by
  obtain ⟨s₁, hrep, hframe₁, hch₁, htrim₁⟩ :=
    reportUndeliveredUpTo_spec env r l [] fuel s h.represents (by omega)
  have h₁ : Buffers s₁ l := h.of_frame hframe₁ hch₁ htrim₁
  obtain ⟨s₂, htrim, h₂, hhead₂⟩ := trim_buffers env r h₁ (by omega : l.length < fuel)
  set s₃ := reportSkip env r { s₂ with curRseq := r, lastReassemRseq := r } with hs₃
  have h₃ : Buffers s₃ ([] ++ l.dropWhile (endsBy r)) :=
    ⟨h₂.represents, h₂.ordered, h₂.reaches, h₂.autoTrim_eq, h₂.connected⟩
  have hlen := (List.dropWhile_sublist (endsBy r) (l := l)).length_le
  have hhead₃ : s₃.head.length = s.head.length := by
    change s₂.head.length = _
    rw [hhead₂, hframe₁.head_eq]
  obtain ⟨s', l', htry, h'⟩ := tryDeliver_spec henv (l.dropWhile (endsBy r)) [] fuel s₃ h₃
    (by rw [hhead₃, List.nil_append]; omega)
  have hfirst₃ : s₃.chunks.first = headAddr (l.dropWhile (endsBy r)) none := h₃.represents.first_eq
  have hfirst : headAddr l none = s.chunks.first := h.represents.first_eq.symm
  rw [hfirst] at hrep
  refine ⟨s', l', ?_, h'⟩
  simp only [skip, hrep, Option.bind_eq_bind, Option.bind_some, h₁.autoTrim_eq, if_true, htrim,
    ← hs₃]
  rw [hfirst₃, htry]

theorem checkSeq_spec (henv : env.Calm) {fuel seq : ℕ} {l : List (ℕ × Block)} (h : Buffers s l)
    (hl : l.length < fuel) (hf : s.head.length < fuel) {k : SpicySink → Option SpicySink}
    (hk : s.initialSeq ≤ seq → ∃ s' l', k s = some s' ∧ Buffers s' l') :
    ∃ s' l', checkSeq env fuel seq k s = some s' ∧ Buffers s' l' := by
  unfold checkSeq
  split
  · rename_i hseq
    exact hk hseq
  · obtain ⟨s', hclose, h'⟩ := sinkClose_spec henv h hl hf
    exact ⟨_, [], by rw [hclose]; rfl, h'.of_excpt true⟩

theorem perform_spec (henv : env.Calm) {fuel : ℕ} {l : List (ℕ × Block)} (h : Buffers s l) (op : Op)
    (hrange : InRange s op) (hsafe : Safe s op) (hf : 4 * l.length + s.head.length + 10 ≤ fuel) :
    ∃ s' l', perform env fuel op s = some s' ∧ Buffers s' l' := by
  have h' := h.of_excpt false
  cases op with
  | write data seq =>
    refine checkSeq_spec henv h' (by omega) (show s.head.length < fuel by omega) fun hseq => ?_
    obtain ⟨hseq', hlen, hu⟩ := hrange
    change ∃ s' l', newBlock env fuel (some data) (sub64 seq s.initialSeq) data.length _ = _ ∧ _
    rw [sub64_of_le hseq hseq']
    exact newBlock_spec henv h' hu (by simpa using hlen) (hsafe hseq) hf
  | append data =>
    exact newBlock_spec henv h' hrange.2 (by simpa using hrange.1) hsafe hf
  | gap seq len =>
    refine checkSeq_spec henv h' (by omega) (show s.head.length < fuel by omega) fun hseq => ?_
    obtain ⟨hseq', hu⟩ := hrange
    change ∃ s' l', newBlock env fuel none (sub64 seq s.initialSeq) len _ = _ ∧ _
    rw [sub64_of_le hseq hseq']
    exact newBlock_spec henv h' hu (by simp) (hsafe hseq) hf
  | skip seq =>
    refine checkSeq_spec henv h' (by omega) (show s.head.length < fuel by omega) fun _ => ?_
    exact skip_spec henv h' (show 2 * l.length + s.head.length + 1 < fuel by omega)
  | trim seq =>
    refine checkSeq_spec henv h' (by omega) (show s.head.length < fuel by omega) fun _ => ?_
    obtain ⟨s', htrim, hbuf, -⟩ := trim_buffers env _ h' (by omega : l.length < fuel)
    exact ⟨s', _, htrim, hbuf⟩
  | close =>
    obtain ⟨s', hclose, hbuf⟩ := sinkClose_spec henv h' (show _ < fuel by omega)
      (show s.head.length < fuel by omega)
    exact ⟨s', [], hclose, hbuf⟩

/-! ## Runs -/

theorem sinkNew_buffers (initialSeq : ℕ) (ids : List ℕ) : Buffers (sinkNew initialSeq ids) [] := by
  refine ⟨empty_represents, Ordered.nil, by simp, rfl, fun p hp => ?_⟩
  obtain ⟨id, -, rfl⟩ := List.mem_map.mp hp
  rfl

/-- Every run whose operations are all safe goes through, and its chunk list is well
formed in the end. -/
theorem run_wellFormed (env : Env) (henv : env.Calm) (initialSeq : ℕ) (ids : List ℕ) (ops : List Op)
    (hops : (machine env (sinkNew initialSeq ids)).Along (fun s op => InRange s op ∧ Safe s op)
      (sinkNew initialSeq ids) ops) :
    ∃ s, (machine env (sinkNew initialSeq ids)).run (sinkNew initialSeq ids) ops = some s ∧
      WellFormed s := by
  have hstep : ∀ (s : SpicySink) (op : Op), (∃ l, Buffers s l) → InRange s op ∧ Safe s op →
      ∃ t, (machine env (sinkNew initialSeq ids)).next s op = some t ∧ ∃ l, Buffers t l := by
    rintro s op ⟨l, h⟩ ⟨hrange, hsafe⟩
    have hlen := h.represents.length_le
    obtain ⟨s', l', heq, h'⟩ := perform_spec henv h op hrange hsafe
      (show _ ≤ opFuel s by unfold opFuel; omega)
    exact ⟨s', heq, l', h'⟩
  obtain ⟨s, hrun, l, h⟩ := Machine.run_invariant hstep ops (sinkNew initialSeq ids)
    ⟨[], sinkNew_buffers initialSeq ids⟩ hops
  exact ⟨s, hrun, l, h.represents, h.ordered, h.reaches⟩

end

/-- Parsers that always wait for more data, and hooks that do nothing. -/
def waitingEnv : Env where
  parse _ _ := .yield
  disconnects _ _ := []
  finish _ _ := .done
  raises _ _ := false
  decode given := given.getLast?

theorem waitingEnv_calm : waitingEnv.Calm :=
  ⟨fun _ _ => rfl, fun _ _ => nofun⟩

/-- A run with all six operations. -/
def mixedOps : List Op :=
  [.write [3, 4] 3, .gap 7 2, .write [1, 2, 3, 4, 5] 1, .append [0], .skip 9, .trim 12,
    .write [6, 7] 11, .close]

theorem mixedOps_wellFormed :
    ∃ s, (machine waitingEnv (sinkNew 0 [1])).run (sinkNew 0 [1]) mixedOps = some s ∧
      WellFormed s :=
  run_wellFormed waitingEnv waitingEnv_calm 0 [1] mixedOps (by decide)

/-- A block whose length still counts what was cut off wraps around; a new block that
ends inside a chunk of `2 ^ 63` or more positions is added behind it the wrong way
round; and for a gap in front of a chunk it overlaps there is no chunk to go on
with. -/
theorem chunk_list_breaks :
    let M := machine waitingEnv (sinkNew 0 [])
    (∀ ops ∈ [[Op.trim (2 ^ 63), .gap 1 (2 ^ 64 - 2)], [.gap 1 (2 ^ 63 + 10), .gap 5 3]],
      M.Along InRange (sinkNew 0 []) ops ∧
        ∃ s, M.run (sinkNew 0 []) ops = some s ∧ ¬ WellFormed s) ∧
    M.Along InRange (sinkNew 0 []) [.gap 5 3, .gap 2 10] ∧
      M.run (sinkNew 0 []) [.gap 5 3, .gap 2 10] = none := by
  intro M
  have hbad : ∀ {ops : List Op} {l : List Block}, ¬ (∀ b ∈ l, b.rseq < b.rupper) →
      ((M.run (sinkNew 0 []) ops).map fun s => s.chunks.toList) = some l →
      ∃ s, M.run (sinkNew 0 []) ops = some s ∧ ¬ WellFormed s := by
    intro ops l hl hrun
    obtain ⟨s, hs, rfl⟩ := Option.map_eq_some_iff.mp hrun
    refine ⟨s, hs, fun ⟨l, hrep, hord, _⟩ => hl fun b hb => ?_⟩
    rw [hrep.toList_eq] at hb
    exact (hord.ok b hb).1
  refine ⟨fun ops hops => ?_, by decide, ?_⟩
  · simp only [List.mem_cons, List.not_mem_nil, or_false] at hops
    rcases hops with rfl | rfl
    · exact ⟨by decide, hbad (l := [⟨2 ^ 63, 2 ^ 63 - 2, none⟩]) (by decide)
        (by decide)⟩
    · exact ⟨by decide, hbad (l := [⟨1, 2 ^ 63 + 11, none⟩, ⟨2 ^ 63 + 11, 8, some []⟩])
        (by decide) (by decide +kernel)⟩
  · have hnone : (M.run (sinkNew 0 []) [.gap 5 3, .gap 2 10]).isNone = true := by decide
    exact Option.isNone_iff_eq_none.mp hnone

end Hilti.Sink
