import Hilti.Sink.WellFormed

/-!
# Reassembly

A sink with one parser that is only written to, in any order and with any overlap.
The bytes at the positions written so far are those of the first write that covers
them; the parser gets them up to the first position that is missing, as long as no
write reaches from before to behind what has been delivered while nothing is
buffered.
-/

namespace Hilti.Sink

open Hilti.Lib Hilti.Lib.LinkedList

set_option autoImplicit false

/-! ## The bytes of blocks -/

/-- The byte of a block at position `k`. -/
def Block.at (b : Block) (k : ℕ) : Option UInt8 :=
  if b.rseq ≤ k then (b.data.getD [])[k - b.rseq]? else none

/-- The byte at position `k` in a list of blocks. -/
def blockByte (l : List Block) (k : ℕ) : Option UInt8 :=
  l.findSome? fun b => b.at k

/-- A block whose data has one byte for every position, and a length that fits
`int64_t`. -/
def Block.Full (b : Block) : Prop :=
  ∃ d, b.data = some d ∧ d.length = b.rupper - b.rseq ∧ d.length < 2 ^ 63

theorem Block.at_of_lt {b : Block} {k : ℕ} (h : k < b.rseq) : b.at k = none :=
  if_neg (not_le.mpr h)

theorem Block.Full.at_of_le {b : Block} (hb : b.Full) {k : ℕ} (h : b.rupper ≤ k) :
    b.at k = none := by
  obtain ⟨d, hd, hlen, -⟩ := hb
  unfold Block.at
  split
  · rw [hd, Option.getD_some, List.getElem?_eq_none_iff]
    omega
  · rfl

theorem Block.Full.at_mem {b : Block} (hb : b.Full) {k : ℕ} (h : b.rseq ≤ k) (hk : k < b.rupper) :
    ∃ x, b.at k = some x := by
  obtain ⟨d, hd, hlen, -⟩ := hb
  have hlt : k - b.rseq < d.length := by omega
  exact ⟨d[k - b.rseq], by rw [Block.at, if_pos h, hd, Option.getD_some,
    List.getElem?_eq_getElem hlt]⟩

theorem blockByte_cons (b : Block) (l : List Block) (k : ℕ) :
    blockByte (b :: l) k = (b.at k).or (blockByte l k) := by
  unfold blockByte
  rw [List.findSome?_cons]
  cases b.at k <;> rfl

theorem blockByte_of_lt {l : List Block} {k : ℕ} (h : ∀ b ∈ l, k < b.rseq) :
    blockByte l k = none := by
  rw [blockByte, List.findSome?_eq_none_iff]
  exact fun b hb => Block.at_of_lt (h b hb)

theorem insertBlock_full {l : List Block} {r u : ℕ} {d : List UInt8} (hl : ∀ b ∈ l, b.Full)
    (hlen : d.length = u - r) (hlt : u - r < 2 ^ 63) : ∀ b ∈ insertBlock l r u (some d), b.Full := by
  induction l generalizing r d with
  | nil =>
    intro b hb
    obtain rfl : b = ⟨r, u, some d⟩ := by simpa [insertBlock] using hb
    exact ⟨d, rfl, hlen, by omega⟩
  | cons c l ih =>
    have hc := hl c (by simp)
    have hl' : ∀ b ∈ l, b.Full := fun b hb => hl b (by simp [hb])
    intro b hb
    unfold insertBlock at hb
    split at hb
    · rcases List.mem_cons.mp hb with rfl | hb
      · exact hc
      · exact ih hl' hlen hlt b hb
    split at hb
    · rcases List.mem_cons.mp hb with rfl | hb
      · exact ⟨d, rfl, hlen, by omega⟩
      · exact hl b hb
    rename_i hcr hcu
    rcases List.mem_append.mp hb with hb | hb
    · unfold prefixBlock at hb
      simp only at hb
      split at hb
      · obtain rfl : b = _ := List.mem_singleton.mp hb
        refine ⟨_, rfl, ?_, ?_⟩
        · simp only [List.length_take]
          omega
        · simp only [List.length_take]
          omega
      · simp at hb
    · rcases List.mem_cons.mp hb with rfl | hb
      · exact hc
      split at hb
      · refine ih hl' ?_ (by omega) b hb
        simp only [Option.getD_some, List.length_drop]
        omega
      · exact hl' b hb

theorem blockByte_prefixBlock {b : Block} {r k : ℕ} {d : List UInt8} (l : List Block) :
    blockByte (prefixBlock b r (some d) ++ l) k =
      (if r ≤ k ∧ k < b.rseq then d[k - r]? else none).or (blockByte l k) := by
  unfold prefixBlock
  by_cases hr : r < b.rseq
  · simp only [if_pos hr, List.cons_append, List.nil_append, blockByte_cons]
    congr 1
    unfold Block.at
    by_cases hrk : r ≤ k
    · by_cases hk : k < b.rseq
      · rw [if_pos hrk, if_pos ⟨hrk, hk⟩]
        simp [show k - r < b.rseq - r by omega]
      · rw [if_pos hrk, if_neg (fun h => hk h.2)]
        simp [show ¬ k - r < b.rseq - r by omega]
    · rw [if_neg hrk, if_neg (fun h => hrk h.1)]
  · simp only [if_neg hr, List.nil_append]
    rw [if_neg (by omega)]
    rfl

theorem blockByte_insertBlock {l : List Block} {r u : ℕ} {d : List UInt8} (hl : Ordered l)
    (hfull : ∀ b ∈ l, b.Full) (hr : r < u) (hlen : d.length = u - r) (hlt : u - r < 2 ^ 63)
    (k : ℕ) :
    blockByte (insertBlock l r u (some d)) k =
      (blockByte l k).or (if r ≤ k then d[k - r]? else none) := by
  induction l generalizing r d with
  | nil =>
    rw [insertBlock, blockByte_cons]
    simp [blockByte, Block.at]
  | cons b l ih =>
    have hb := hfull b (by simp)
    have hok := (hl.ok b (by simp)).1
    have hfull' : ∀ b ∈ l, b.Full := fun b hb => hfull b (by simp [hb])
    unfold insertBlock
    split
    · rw [blockByte_cons, ih hl.tail hfull' hr hlen hlt, blockByte_cons, Option.or_assoc]
    split
    · rename_i hu
      rw [blockByte_cons]
      by_cases hk : k < u
      · have hall : ∀ c ∈ b :: l, k < c.rseq := by
          intro c hc
          rcases List.mem_cons.mp hc with rfl | hc
          · omega
          · have := hl.head_le c hc
            omega
        rw [blockByte_of_lt hall]
        simp [Block.at]
      · have hnone : (if r ≤ k then d[k - r]? else none) = none := by
          split
          · rw [List.getElem?_eq_none_iff]
            omega
          · rfl
        simp only [Block.at, Option.getD_some, hnone, Option.none_or, Option.or_none]
    rename_i hbr hub
    rw [blockByte_prefixBlock, blockByte_cons, blockByte_cons]
    -- what the rest of the insertion contributes
    have hrest : blockByte (if GoesOn (max r b.rseq) b.rupper u then
          insertBlock l b.rupper u (some (((some d).getD []).drop (b.rupper - r))) else l) k =
        (blockByte l k).or (if b.rupper ≤ k then d[k - r]? else none) := by
      split
      · rename_i hgo
        have := hgo.1
        rw [Option.getD_some, ih hl.tail hfull' hgo.1 (by simp only [List.length_drop]; omega)
          (by omega)]
        congr 1
        split
        · rw [List.getElem?_drop]
          congr 1
          omega
        · rfl
      · rename_i hgo
        have hpu : u ≤ b.rupper := by
          by_contra h
          exact hgo ⟨by omega, .inl (by omega)⟩
        have hnone : (if b.rupper ≤ k then d[k - r]? else none) = none := by
          split
          · rw [List.getElem?_eq_none_iff]
            omega
          · rfl
        rw [hnone, Option.or_none]
    rw [hrest]
    rcases lt_or_ge k b.rseq with hk | hk
    · have hall : ∀ c ∈ l, k < c.rseq := by
        intro c hc
        have := hl.head_le c hc
        omega
      rw [Block.at_of_lt hk, blockByte_of_lt hall, if_neg (show ¬ b.rupper ≤ k by omega)]
      simp [hk]
    · rw [if_neg (show ¬ (r ≤ k ∧ k < b.rseq) by omega)]
      rcases lt_or_ge k b.rupper with hk' | hk'
      · obtain ⟨x, hx⟩ := hb.at_mem hk hk'
        simp [hx]
      · rw [hb.at_of_le hk', if_pos hk', if_pos (by omega)]
        simp

/-! ## Handing over -/

/-- All bytes handed to parsers. -/
def handed (s : SpicySink) : List UInt8 :=
  ((deliveries s.log).map Prod.snd).flatten

/-- The bytes at the positions below `n`. -/
def bytesBelow (f : ℕ → Option UInt8) (n : ℕ) : List UInt8 :=
  (List.range n).filterMap f

theorem bytesBelow_add {f : ℕ → Option UInt8} {n : ℕ} {d : List UInt8}
    (h : ∀ i < d.length, f (n + i) = d[i]?) :
    bytesBelow f (n + d.length) = bytesBelow f n ++ d := by
  induction d generalizing n with
  | nil => simp
  | cons x d ih =>
    have hx : f n = some x := by simpa using h 0 (by simp)
    have hnext : bytesBelow f (n + 1) = bytesBelow f n ++ [x] := by
      simp [bytesBelow, List.range_succ, List.filterMap_append, hx]
    have hd : ∀ i < d.length, f (n + 1 + i) = d[i]? := by
      intro i hi
      have := h (i + 1) (by simpa using hi)
      rw [List.getElem?_cons_succ] at this
      rw [← this]
      congr 1
      omega
    have hrest := ih hd
    rw [List.length_cons, show n + (d.length + 1) = n + 1 + d.length by omega, hrest, hnext]
    simp

theorem bytesBelow_congr {f g : ℕ → Option UInt8} {n : ℕ} (h : ∀ k < n, f k = g k) :
    bytesBelow f n = bytesBelow g n :=
  List.filterMap_congr fun k hk => h k (List.mem_range.mp hk)

section

variable {env : Env} {s : SpicySink}

variable (env) in
theorem deliverData_nil (hfilter : s.filter = none) (hhead : s.head = []) (fuel : ℕ)
    (data : List UInt8) :
    deliverData env fuel data s = some { s with size := uint64 (s.size + data.length) } := by
  simp only [deliverData, hfilter, hhead, if_true]
  split <;> rfl

theorem deliverData_single (henv : env.Calm) {p : ParserState} (hfilter : s.filter = none)
    (hexc : s.excpt = false) (hhead : s.head = [p]) (hp : p.disconnected = false)
    (hresume : p.fed ≠ [] → p.resume = true) {fuel : ℕ} (hf : 2 ≤ fuel) (data : List UInt8) :
    ∃ s', deliverData env fuel data s = some s' ∧ s'.filter = none ∧
      handed s' = handed s ++ data ∧
      (s'.head = [] ∨ (∃ p', s'.head = [p'] ∧ p'.resume = true) ∧ s'.excpt = false) := by
  obtain ⟨fuel, rfl⟩ : ∃ n, fuel = n + 2 := ⟨fuel - 2, by omega⟩
  have hskip : ¬ (p.fed ≠ [] ∧ p.resume = false) := by
    rintro ⟨h1, h2⟩
    simp [hresume h1] at h2
  have hhanded : ∀ s' : SpicySink, s'.log = s.log ++ [Event.deliver p.id data] →
      handed s' = handed s ++ data := by
    intro s' hlog
    simp [handed, hlog, deliveries]
  cases hout : env.parse p.id (p.fed ++ [data]) <;>
    simp [deliverData, hfilter, hexc, hhead, deliverLoop, hp, hskip, henv.disconnects_eq, hout,
      finishDisconnected, List.findIdx?_cons] <;>
    exact hhanded _ rfl

/-- The sink has handed over the bytes `f` below position `n`, unless its parser has
finished before, and buffers the chunks `l` behind them. -/
structure Delivered (f : ℕ → Option UInt8) (s : SpicySink) (l : List (ℕ × Block)) (n : ℕ) : Prop where
  buffers : Buffers s l
  filter_eq : s.filter = none
  curRseq_eq : s.curRseq = n
  lastReassemRseq_eq : s.lastReassemRseq = n
  trimRseq_eq : s.trimRseq = n
  full : ∀ b ∈ vals l, b.Full
  ahead : ∀ b ∈ vals l, n ≤ b.rseq
  below : ∀ k < n, f k ≠ none
  parser : s.head = [] ∨ (∃ p, s.head = [p] ∧ (p.fed ≠ [] → p.resume = true)) ∧ s.excpt = false
  handed_below : handed s <+: bytesBelow f n
  handed_eq : s.head ≠ [] → handed s = bytesBelow f n

theorem Delivered.congr {f g : ℕ → Option UInt8} {l : List (ℕ × Block)} {n : ℕ}
    (h : Delivered f s l n) (hfg : ∀ k < n, f k = g k) : Delivered g s l n :=
  { h with
    below := fun k hk => hfg k hk ▸ h.below k hk
    handed_below := bytesBelow_congr hfg ▸ h.handed_below
    handed_eq := bytesBelow_congr hfg ▸ h.handed_eq }

theorem Delivered.deliverChunk (henv : env.Calm) (hsilent : env.Silent) {f : ℕ → Option UInt8}
    {l : List (ℕ × Block)} {n : ℕ} (h : Delivered f s l n) {b : Block} {d : List UInt8} (hn : b.rseq = n)
    (hb : b.rseq < b.rupper) (hd : b.data = some d) (hlen : d.length = b.rupper - b.rseq)
    (hbytes : ∀ i < d.length, f (n + i) = d[i]?)
    (hrest : ∀ b' ∈ vals (l.dropWhile (endsBy b.rupper)), b.rupper ≤ b'.rseq) (x : ℕ) {fuel : ℕ}
    (hl : l.length < fuel) (hf : 2 ≤ fuel) :
    ∃ s', Sink.deliverChunk env fuel b { s with lastReassemRseq := x } = some (s', true) ∧
      Delivered f s' (l.dropWhile (endsBy b.rupper)) b.rupper ∧ s'.initialSeq = s.initialSeq := by
  set s₀ : SpicySink := { s with lastReassemRseq := x } with hs₀
  have hhead : s₀.head.length < fuel := by
    rcases h.parser with hp | ⟨⟨p, hp, -⟩, -⟩
    · simp only [hs₀, hp, List.length_nil]
      omega
    · simp only [hs₀, hp, List.length_singleton]
      omega
  obtain ⟨s₁, s', hdata, hfed, heq, hframe, htrim, hrep, hexc⟩ := deliverChunk_data henv hd
    (s := s₀) h.buffers.represents h.buffers.autoTrim_eq h.buffers.connected hl hhead
  have hbuf : Buffers s' (l.dropWhile (endsBy b.rupper)) :=
    .of_dropWhile h.buffers.ordered hrep htrim
      (hframe.autoTrim_eq.trans (hfed.autoTrim_eq.trans h.buffers.autoTrim_eq))
      (hframe.head_eq ▸ hfed.connected h.buffers.connected)
  have hhanded : handed s' = handed s₁ := by
    unfold handed
    rw [hframe.deliveries_eq]
  have hsum : b.rupper = n + d.length := by omega
  have hbelow : bytesBelow f b.rupper = bytesBelow f n ++ d := by
    rw [hsum, bytesBelow_add hbytes]
  -- what the parser has been given, and whether it waits for more
  have hparser : s₁.filter = none ∧ handed s₁ <+: bytesBelow f b.rupper ∧
      (s₁.head ≠ [] → handed s₁ = bytesBelow f b.rupper) ∧
      (s₁.head = [] ∨ (∃ p, s₁.head = [p] ∧ (p.fed ≠ [] → p.resume = true)) ∧
        s₁.excpt = false) := by
    rcases h.parser with hp | ⟨⟨p, hp, hres⟩, hexc₀⟩
    · have hs₁ : s₁ = { s₀ with size := uint64 (s₀.size + d.length) } := by
        have hnil := deliverData_nil env (s := s₀) h.filter_eq hp fuel d
        simpa [hdata] using hnil
      refine ⟨by rw [hs₁]; exact h.filter_eq, ?_, ?_, .inl ?_⟩
      · rw [hs₁, hbelow]
        exact h.handed_below.trans (List.prefix_append _ _)
      · rw [hs₁]
        exact fun hne => absurd hp hne
      · rw [hs₁]
        exact hp
    · obtain ⟨s₂, hdata₂, hfilter₂, hhanded₂, hcase⟩ := deliverData_single henv (s := s₀) (p := p)
        h.filter_eq hexc₀ hp (h.buffers.connected p (by simp [hp])) hres hf d
      obtain rfl : s₁ = s₂ := by simpa [hdata] using hdata₂
      have hall : handed s₁ = bytesBelow f b.rupper := by
        rw [hhanded₂, hbelow]
        congr 1
        exact h.handed_eq (by simp [hp])
      refine ⟨hfilter₂, hall ▸ List.prefix_rfl, fun _ => hall, hcase.imp id fun hc => ?_⟩
      obtain ⟨⟨p', hp', hres'⟩, hexc'⟩ := hc
      exact ⟨⟨p', hp', fun _ => hres'⟩, hexc'⟩
  obtain ⟨hfilter, hpre, hhandedEq, hcase⟩ := hparser
  refine ⟨s', heq, ⟨hbuf, ?_, ?_, ?_, htrim, ?_, hrest, ?_, ?_, ?_, ?_⟩, ?_⟩
  · exact hframe.filter_eq.trans hfilter
  · exact hframe.curRseq_eq
  · exact hframe.lastReassemRseq_eq
  · intro b' hb'
    have hsub := List.Sublist.map Prod.snd (List.dropWhile_sublist (endsBy b.rupper) (l := l))
    exact h.full b' (hsub.subset hb')
  · intro k hk
    rcases lt_or_ge k n with hkn | hkn
    · exact h.below k hkn
    · have hlt : k - n < d.length := by omega
      have := hbytes (k - n) hlt
      rw [show n + (k - n) = k by omega, List.getElem?_eq_getElem hlt] at this
      simp [this]
  · rw [hframe.head_eq, hexc hsilent]
    exact hcase
  · rw [hhanded]
    exact hpre
  · rw [hframe.head_eq, hhanded]
    exact hhandedEq
  · rw [hframe.initialSeq_eq]
    exact hfed.initialSeq_eq

theorem Delivered.tryDeliver (henv : env.Calm) (hsilent : env.Silent) {f : ℕ → Option UInt8}
    (l : List (ℕ × Block)) :
    ∀ (n fuel : ℕ) (s : SpicySink), Delivered f s l n →
    (∀ k, n ≤ k → f k = blockByte (vals l) k) → 2 * l.length + 2 < fuel →
    ∃ s' l' n', Sink.tryDeliver env fuel (headAddr l none) s = some s' ∧ Delivered f s' l' n' ∧
      (∀ k, n' ≤ k → f k = blockByte (vals l') k) ∧ (∀ b ∈ vals l', n' < b.rseq) ∧
      s'.initialSeq = s.initialSeq := by
  induction l with
  | nil =>
    intro n fuel s h hf hfuel
    obtain ⟨fuel, rfl⟩ : ∃ m, fuel = m + 1 := ⟨fuel - 1, by omega⟩
    exact ⟨s, [], n, rfl, h, hf, by simp, rfl⟩
  | cons e l ih =>
    intro n fuel s h hf hfuel
    obtain ⟨a, b⟩ := e
    obtain ⟨fuel, rfl⟩ : ∃ m, fuel = m + 1 := ⟨fuel - 1, by omega⟩
    have hcell : s.chunks.heap a = some ⟨headAddr l none, none, b⟩ := h.buffers.represents.chain.1
    have hnb : n ≤ b.rseq := h.ahead b (by simp)
    have hok := h.buffers.ordered.ok b (by simp)
    have hvals : vals ((a, b) :: l) = b :: vals l := rfl
    have hnext : ∀ c ∈ vals l, b.rupper ≤ c.rseq := h.buffers.ordered.head_le
    rw [hvals] at hf
    simp only [List.length_cons] at hfuel
    by_cases hstart : b.rseq = n
    · obtain ⟨d, hd, hlen, -⟩ := h.full b (by simp)
      have hbytes : ∀ i < d.length, f (n + i) = d[i]? := by
        intro i hi
        have hlt := List.getElem?_eq_getElem hi
        rw [hf (n + i) (by omega), blockByte_cons, Block.at, if_pos (by omega),
          hd, Option.getD_some, show n + i - b.rseq = i by omega, hlt]
        rfl
      have hdrop : ((a, b) :: l).dropWhile (endsBy b.rupper) = l :=
        dropWhile_rupper (show Ordered (vals ([] ++ (a, b) :: l)) from h.buffers.ordered)
      obtain ⟨s₁, heq, h₁, hinit₁⟩ := h.deliverChunk henv hsilent hstart hok.1 hd hlen hbytes
        (by rw [hdrop]; exact hnext)
        (uint64 (s.lastReassemRseq + sub64 b.rupper b.rseq))
        (show _ < fuel by simp only [List.length_cons]; omega) (by omega)
      rw [hdrop] at h₁
      have hf₁ : ∀ k, b.rupper ≤ k → f k = blockByte (vals l) k := by
        intro k hk
        have hfull := h.full b (by simp)
        rw [hf k (by have := hok.1; omega), blockByte_cons, hfull.at_of_le hk]
        rfl
      obtain ⟨s', l', n', htry, hdel, hf', hgt, hinit⟩ := ih b.rupper fuel s₁ h₁ hf₁ (by omega)
      refine ⟨s', l', n', ?_, hdel, hf', hgt, hinit.trans hinit₁⟩
      have hlast : b.rseq = s.lastReassemRseq := hstart.trans h.lastReassemRseq_eq.symm
      simp only [headAddr, Sink.tryDeliver, hcell, Option.bind_eq_bind, Option.bind_some]
      rw [if_pos hlast.le, if_pos hlast, heq]
      exact htry
    · refine ⟨s, (a, b) :: l, n, ?_, h, hf, ?_, rfl⟩
      · simp only [headAddr, Sink.tryDeliver, hcell, Option.bind_eq_bind, Option.bind_some]
        rw [if_neg]
        rw [h.lastReassemRseq_eq]
        omega
      · intro c hc
        rcases List.mem_cons.mp hc with rfl | hc
        · omega
        · have := hnext c hc
          have := hok.1
          omega

/-! ## Writing -/

/-- The byte at position `k` of the first write that covers it. -/
def byteAt (initialSeq : ℕ) (ws : List (List UInt8 × ℕ)) (k : ℕ) : Option UInt8 :=
  ws.findSome? fun w =>
    if w.2 - initialSeq ≤ k then w.1[k - (w.2 - initialSeq)]? else none

theorem byteAt_append (initialSeq : ℕ) (ws : List (List UInt8 × ℕ)) (data : List UInt8) (seq k : ℕ) :
    byteAt initialSeq (ws ++ [(data, seq)]) k = (byteAt initialSeq ws k).or
      (if seq - initialSeq ≤ k then data[k - (seq - initialSeq)]? else none) := by
  unfold byteAt
  rw [List.findSome?_append]
  congr 1
  rw [List.findSome?_cons]
  split <;> simp_all

/-- The state between two writes: the first missing position is `n`, and everything
behind it is buffered. -/
structure Reassembles (f : ℕ → Option UInt8) (s : SpicySink) (l : List (ℕ × Block)) (n : ℕ) :
    Prop extends Delivered f s l n where
  above : ∀ k, n ≤ k → f k = blockByte (vals l) k
  gap : ∀ b ∈ vals l, n < b.rseq

/-- A write whose positions fit 64 bits, none of which is before the first one. -/
def WriteFits (initialSeq : ℕ) (w : List UInt8 × ℕ) : Prop :=
  initialSeq ≤ w.2 ∧ w.2 < 2 ^ 64 ∧ w.1.length < 2 ^ 63 ∧ w.2 - initialSeq + w.1.length < 2 ^ 64

/-- Something is buffered, or the write does not reach from before to behind what has
been delivered. -/
def NotStale (s : SpicySink) : Op → Prop
  | .write data seq => s.chunks.first ≠ none ∨ s.trimRseq ≤ seq - s.initialSeq ∨
      seq - s.initialSeq + data.length ≤ s.trimRseq
  | _ => True

instance (s : SpicySink) : (op : Op) → Decidable (NotStale s op)
  | .write _ _ => inferInstanceAs (Decidable (_ ∨ _))
  | .append _ => isTrue trivial
  | .gap _ _ => isTrue trivial
  | .skip _ => isTrue trivial
  | .trim _ => isTrue trivial
  | .close => isTrue trivial

theorem Delivered.of_frame {f : ℕ → Option UInt8} {s' : SpicySink} {l l' : List (ℕ × Block)} {n : ℕ}
    (h : Delivered f s l n) (hframe : Frame s s') (htrim : s'.trimRseq = s.trimRseq)
    (hexc : s'.excpt = s.excpt) (hbuf : Buffers s' l') (hfull : ∀ b ∈ vals l', b.Full)
    (hahead : ∀ b ∈ vals l', n ≤ b.rseq) : Delivered f s' l' n := by
  have hhanded : handed s' = handed s := by
    unfold handed
    rw [hframe.deliveries_eq]
  refine ⟨hbuf, ?_, ?_, ?_, ?_, hfull, hahead, h.below, ?_, ?_, ?_⟩
  · exact hframe.filter_eq.trans h.filter_eq
  · exact hframe.curRseq_eq.trans h.curRseq_eq
  · exact hframe.lastReassemRseq_eq.trans h.lastReassemRseq_eq
  · exact htrim.trans h.trimRseq_eq
  · rw [hframe.head_eq, hexc]
    exact h.parser
  · rw [hhanded]
    exact h.handed_below
  · rw [hframe.head_eq, hhanded]
    exact h.handed_eq

theorem Delivered.deliverFrom (henv : env.Calm) (hsilent : env.Silent) {f : ℕ → Option UInt8}
    {k₁ k₂ : List (ℕ × Block)} {c n fuel : ℕ} {w : Block}
    (h : Delivered f s (k₁ ++ (c, w) :: k₂) n)
    (habove : ∀ k, n ≤ k → f k = blockByte (vals (k₁ ++ (c, w) :: k₂)) k)
    (hcase : (∀ b ∈ vals (k₁ ++ (c, w) :: k₂), n < b.rseq) ∨ k₁ = [] ∧ w.rseq = n)
    (hf : 2 * (k₁ ++ (c, w) :: k₂).length + 2 < fuel) :
    ∃ s' l' n', Sink.deliverFrom env fuel c s = some s' ∧ Reassembles f s' l' n' ∧
      s'.initialSeq = s.initialSeq := by
  simp only [Sink.deliverFrom, h.buffers.represents.heap_eq, Option.bind_eq_bind, Option.bind_some,
    h.lastReassemRseq_eq]
  rcases hcase with hgt | ⟨rfl, hw⟩
  · have hwn : n < w.rseq := hgt w (by simp)
    rw [if_pos (.inl hwn)]
    exact ⟨s, _, n, rfl, ⟨h, habove, hgt⟩, rfl⟩
  · have hok := (h.buffers.ordered.ok w (by simp)).1
    rw [if_neg (by omega)]
    obtain ⟨s', l', n', htry, hdel, hf', hgt, hinit⟩ :=
      Delivered.tryDeliver henv hsilent ((c, w) :: k₂) n fuel s h habove hf
    exact ⟨s', l', n', htry, ⟨hdel, hf', hgt⟩, hinit⟩

variable (env) in
theorem Reassembles.firstChunk {f g : ℕ → Option UInt8} {n r : ℕ} {data : List UInt8} (fuel : ℕ)
    (h : Reassembles f s [] n) (hg : ∀ k, g k = (f k).or (if r ≤ k then data[k - r]? else none))
    (hfg : ∀ k < n, f k = g k) (hne : data ≠ []) (hr : n < r) (hlt : data.length < 2 ^ 63)
    (hu : r + data.length < 2 ^ 64) :
    ∃ s' l' n', newBlock env fuel (some data) r data.length s = some s' ∧ Reassembles g s' l' n' ∧
      s'.initialSeq = s.initialSeq := by
  have hlen : 0 < data.length := List.length_pos_iff.mpr hne
  have hfirst : s.chunks.first = none := h.buffers.represents.first_eq
  have hmax : max r s.trimRseq = r := by
    rw [h.trimRseq_eq]
    omega
  have hclip : clip s (some data) r = some data := by
    simp [clip, h.trimRseq_eq, Nat.sub_eq_zero_of_le hr.le]
  set b : Block := ⟨r, r + data.length, some data⟩ with hb
  set s₁ : SpicySink := { s with chunks := { s.chunks.alloc b with
    first := some s.chunks.fresh, last := some s.chunks.fresh } } with hs₁
  have hrep : s₁.chunks.Represents ([] ++ (s.chunks.fresh, b) :: []) :=
    h.buffers.represents.singleton b
  have hvals : vals ([] ++ (s.chunks.fresh, b) :: []) = [b] := rfl
  have hall : ∀ {P : Block → Prop}, P b → ∀ c ∈ vals ([] ++ (s.chunks.fresh, b) :: []), P c := by
    intro P hP c hc
    rw [hvals] at hc
    exact List.mem_singleton.mp hc ▸ hP
  have hbuf : Buffers s₁ ([] ++ (s.chunks.fresh, b) :: []) := by
    refine ⟨hrep, Ordered.nil.cons ⟨?_, hu⟩ (by simp), hall ?_, h.buffers.autoTrim_eq,
      h.buffers.connected⟩
    · change r < r + data.length
      omega
    · change s.trimRseq < r + data.length
      rw [h.trimRseq_eq]
      omega
  have hdel : Delivered g s₁ ([] ++ (s.chunks.fresh, b) :: []) n := by
    refine (h.toDelivered.congr hfg).of_frame ⟨rfl, rfl, rfl, rfl, rfl, rfl, rfl⟩ rfl rfl hbuf
      (hall ⟨data, rfl, ?_, hlt⟩) (hall ?_)
    · change data.length = r + data.length - r
      omega
    · exact hr.le
  have habove : ∀ k, n ≤ k → g k = blockByte (vals ([] ++ (s.chunks.fresh, b) :: [])) k := by
    intro k hk
    rw [hg, h.above k hk, hvals, blockByte_cons]
    simp [blockByte, Block.at, hb]
  refine ⟨s₁, _, n, ?_, ⟨hdel, habove, hall hr⟩, rfl⟩
  rw [newBlock_buffer hlen.ne' (by rw [h.curRseq_eq]; omega) hu (by rw [h.trimRseq_eq]; omega)
    (by simpa using hlt), hfirst, hmax, hclip, uint64_of_lt hu]
  simp only [Option.bind_some, Sink.deliverFrom, Option.bind_eq_bind]
  rw [show s₁.chunks.heap s.chunks.fresh = _ from hrep.heap_eq]
  simp only [Option.bind_some]
  rw [if_pos]
  left
  change s.lastReassemRseq < r
  rw [h.lastReassemRseq_eq]
  exact hr

theorem Reassembles.insert (henv : env.Calm) (hsilent : env.Silent) {f g : ℕ → Option UInt8}
    {l : List (ℕ × Block)} {n r : ℕ} {data : List UInt8} {fuel : ℕ} (h : Reassembles f s l n)
    (hg : ∀ k, g k = (f k).or (if r ≤ k then data[k - r]? else none)) (hfg : ∀ k < n, f k = g k)
    (hl : l ≠ []) (hne : data ≠ []) (hlt : data.length < 2 ^ 63) (hu : r + data.length < 2 ^ 64)
    (hnu : n < r + data.length) (hf : 4 * l.length + 10 ≤ fuel) :
    ∃ s' l' n', newBlock env fuel (some data) r data.length s = some s' ∧ Reassembles g s' l' n' ∧
      s'.initialSeq = s.initialSeq := by
  obtain ⟨⟨a, v⟩, suf, rfl⟩ := List.exists_cons_of_ne_nil hl
  have hfirst : s.chunks.first = some a := h.buffers.represents.first_eq
  have hlen : 0 < data.length := List.length_pos_iff.mpr hne
  have hdata : ∀ d, some data = some d → d.length < 2 ^ 63 ∧ d.length = data.length := by
    simpa using hlt
  have htrim : s.trimRseq < r + data.length := h.trimRseq_eq ▸ hnu
  have hdrop : (data.drop (n - r)).length = r + data.length - max r n := by
    rw [List.length_drop]
    omega
  have hclip : clip s (some data) r = some (data.drop (n - r)) := by
    rw [clip, h.trimRseq_eq]
    rfl
  have hdok : DataOk (max r n) (r + data.length) (some (data.drop (n - r))) := by
    have := clip_dataOk htrim hdata
    rwa [hclip, h.trimRseq_eq] at this
  have hfit : LengthsFit (vals ((a, v) :: suf)) (max r n) (r + data.length) := by
    intro b hb _ _ hbig
    obtain ⟨d, -, hlen', hlt'⟩ := h.full b hb
    omega
  have hreach : reaching ((a, v) :: suf) (max r n) ≤ suf.length + 1 := by
    refine (List.length_filter_le _ _).trans ?_
    simp
  simp only [List.length_cons] at hf
  obtain ⟨s₁, c, suf', hadd, hins⟩ := addAndCheck_spec env fuel [] suf a v (max r n)
    (r + data.length) (some (data.drop (n - r))) s h.buffers.represents h.buffers.ordered (by omega)
    hu hdok hfit (by omega)
  obtain ⟨k₁, c', w, k₂, rfl, rfl, -, hstart⟩ := hins.returns trivial
  have hord : Ordered (vals (k₁ ++ (c', w) :: k₂)) := by
    rw [hins.vals_eq]
    exact insertBlock_ordered h.buffers.ordered (by omega) hu
  have hmem : ∀ b ∈ vals (k₁ ++ (c', w) :: k₂), n < b.rseq ∨ max r n ≤ b.rseq := by
    intro b hb
    rw [hins.vals_eq] at hb
    exact (insertBlock_mem h.buffers.ordered hb).imp (h.gap b) id
  have hbuf : Buffers s₁ (k₁ ++ (c', w) :: k₂) := by
    refine ⟨hins.represents, hord, fun b hb => ?_,
      hins.frame.autoTrim_eq.trans h.buffers.autoTrim_eq, hins.frame.head_eq ▸ h.buffers.connected⟩
    rw [hins.trimRseq_eq, h.trimRseq_eq]
    have hok := (hord.ok b hb).1
    have := hmem b hb
    omega
  have hdel : Delivered g s₁ (k₁ ++ (c', w) :: k₂) n := by
    refine (h.toDelivered.congr hfg).of_frame hins.frame hins.trimRseq_eq
      (hins.excpt_eq hsilent (by simp)) hbuf ?_ ?_
    · rw [hins.vals_eq]
      exact insertBlock_full h.full hdrop (by omega)
    · intro b hb
      have := hmem b hb
      omega
  have habove : ∀ k, n ≤ k → g k = blockByte (vals (k₁ ++ (c', w) :: k₂)) k := by
    intro k hk
    rw [hins.vals_eq, blockByte_insertBlock h.buffers.ordered h.full (by omega) hdrop (by omega), hg,
      h.above k hk]
    congr 1
    by_cases hrk : r ≤ k
    · rw [if_pos hrk, if_pos (by omega), List.getElem?_drop]
      congr 1
      omega
    · rw [if_neg hrk, if_neg (by omega)]
  have hcase : (∀ b ∈ vals (k₁ ++ (c', w) :: k₂), n < b.rseq) ∨ k₁ = [] ∧ w.rseq = n := by
    rcases lt_or_ge n r with hnr | hnr
    · left
      intro b hb
      have := hmem b hb
      omega
    · right
      have hmax : max r n = n := by omega
      obtain ⟨hk₁, hw⟩ := hstart fun b hb => by
        rw [hmax]
        exact h.gap b hb
      exact ⟨hk₁, hw.trans hmax⟩
  have hcount : (k₁ ++ (c', w) :: k₂).length ≤ 2 * (suf.length + 1) + 1 := by
    have := insertBlock_length (vals ((a, v) :: suf)) (max r n) (r + data.length)
      (some (data.drop (n - r)))
    rw [← hins.vals_eq] at this
    simpa using this
  obtain ⟨s', l', n', hfrom, hre, hinit⟩ :=
    hdel.deliverFrom henv hsilent habove hcase (show _ < fuel by omega)
  refine ⟨s', l', n', ?_, hre, hinit.trans hins.frame.initialSeq_eq⟩
  rw [newBlock_buffer hlen.ne' (by simp [hfirst]) hu htrim hdata, hfirst, hclip, h.trimRseq_eq]
  simp only [hadd, Option.bind_some]
  exact hfrom

theorem perform_write {fuel seq : ℕ} {data : List UInt8} (hseq : s.initialSeq ≤ seq)
    (hseq' : seq < 2 ^ 64) :
    perform env fuel (.write data seq) s = newBlock env fuel (some data) (seq - s.initialSeq)
      data.length { s with excpt := false } := by
  simp only [perform, sinkWrite, checkSeq, if_pos hseq, sub64_of_le hseq hseq']

/-- The step lemma: one write. -/
theorem Reassembles.write (henv : env.Calm) (hsilent : env.Silent) {ws : List (List UInt8 × ℕ)}
    {l : List (ℕ × Block)} {n : ℕ} (h : Reassembles (byteAt s.initialSeq ws) s l n)
    {data : List UInt8} {seq : ℕ} (hfits : WriteFits s.initialSeq (data, seq))
    (hstale : NotStale s (.write data seq)) :
    ∃ s' l' n', perform env (opFuel s) (.write data seq) s = some s' ∧
      Reassembles (byteAt s.initialSeq (ws ++ [(data, seq)])) s' l' n' ∧
      s'.initialSeq = s.initialSeq := by
  obtain ⟨hseq, hseq', hlt, hu⟩ := hfits
  simp only at hseq hseq' hlt hu
  have hg := byteAt_append s.initialSeq ws data seq
  set r := seq - s.initialSeq with hr
  have hfg : ∀ k < n, byteAt s.initialSeq ws k = byteAt s.initialSeq (ws ++ [(data, seq)]) k := by
    intro k hk
    obtain ⟨x, hx⟩ := Option.ne_none_iff_exists'.mp (h.below k hk)
    rw [hg, hx]
    rfl
  set s₀ : SpicySink := { s with excpt := false } with hs₀
  have h₀ : Reassembles (byteAt s.initialSeq ws) s₀ l n :=
    ⟨⟨h.buffers.of_excpt false, h.filter_eq, h.curRseq_eq, h.lastReassemRseq_eq, h.trimRseq_eq,
      h.full, h.ahead, h.below, h.parser.imp id fun hp => ⟨hp.1, rfl⟩, h.handed_below,
      h.handed_eq⟩, h.above, h.gap⟩
  have hperform : perform env (opFuel s) (.write data seq) s =
      newBlock env (opFuel s) (some data) r data.length s₀ := by
    rw [perform_write hseq hseq', hr]
  have hlength := h.buffers.represents.length_le
  have hfuel : 4 * l.length + 10 ≤ opFuel s := by
    unfold opFuel
    omega
  -- the write adds nothing behind the first missing position
  have hsame : (∀ k, n ≤ k → (if r ≤ k then data[k - r]? else none) = none) →
      Reassembles (byteAt s.initialSeq (ws ++ [(data, seq)])) s₀ l n := by
    intro hnone
    refine ⟨h₀.toDelivered.congr hfg, fun k hk => ?_, h.gap⟩
    rw [hg, hnone k hk, Option.or_none]
    exact h.above k hk
  rw [hperform]
  by_cases hne : data = []
  · exact ⟨s₀, l, n, by simp [newBlock, hne], hsame (by simp [hne]), rfl⟩
  have hlen : data.length ≠ 0 := by simpa using hne
  by_cases hold : r + data.length ≤ n
  · refine ⟨s₀, l, n, ?_, hsame fun k hk => ?_, rfl⟩
    · have hcur : s₀.curRseq = n := h.curRseq_eq
      have htrim : s₀.trimRseq = n := h.trimRseq_eq
      rw [newBlock, if_neg hlen, if_neg (by omega), uint64_of_lt hu, htrim]
      simp only [if_pos hold]
    · split
      · rw [List.getElem?_eq_none_iff]
        omega
      · rfl
  by_cases hl : l = []
  · subst hl
    have hfirst : s₀.chunks.first = none := h.buffers.represents.first_eq
    have hnr : n ≤ r := by
      rcases hstale with hs | hs | hs
      · exact absurd hfirst hs
      · rwa [h.trimRseq_eq] at hs
      · rw [h.trimRseq_eq] at hs
        exact absurd hs hold
    rcases hnr.lt_or_eq with hnr | rfl
    · obtain ⟨s', l', n', hnew, hre, hinit'⟩ :=
        h₀.firstChunk env (opFuel s) hg hfg hne hnr hlt hu
      exact ⟨s', l', n', hnew, hre, hinit'⟩
    · -- the write is handed on right away
      have hnone : ∀ k, r ≤ k → byteAt s.initialSeq ws k = none := fun k hk => h.above k hk
      have hbytes : ∀ i < data.length,
          byteAt s.initialSeq (ws ++ [(data, seq)]) (r + i) = data[i]? := by
        intro i hi
        rw [hg, hnone _ (by omega), if_pos (by omega)]
        simp
      obtain ⟨s', heq, hdel, hinit'⟩ := (h₀.toDelivered.congr hfg).deliverChunk henv hsilent
        (b := ⟨r, r + data.length, some data⟩) (d := data) rfl
        (show r < r + data.length by omega) rfl (show data.length = r + data.length - r by omega)
        hbytes (by simp) s₀.lastReassemRseq (show _ < opFuel s by unfold opFuel; simp)
        (by unfold opFuel; omega)
      refine ⟨s', _, _, ?_, ⟨hdel, fun k hk => ?_, by simp⟩, hinit'⟩
      · rw [newBlock, if_neg hlen, if_pos ⟨h.curRseq_eq.symm, hfirst⟩, uint64_of_lt hu,
          show Sink.deliverChunk env (opFuel s) _ s₀ = _ from heq]
        rfl
      · have hk' : r + data.length ≤ k := hk
        rw [hg, hnone k (by omega), if_pos (by omega), List.getElem?_eq_none_iff.mpr (by omega)]
        rfl
  · obtain ⟨s', l', n', hnew, hre, hinit'⟩ :=
      h₀.insert henv hsilent hg hfg hl hne hlt hu (by omega) hfuel
    exact ⟨s', l', n', hnew, hre, hinit'⟩

/-! ## Runs -/

def writeOps (ws : List (List UInt8 × ℕ)) : List Op :=
  ws.map fun w => .write w.1 w.2

theorem Reassembles.run (henv : env.Calm) (hsilent : env.Silent) {start : SpicySink}
    (ws : List (List UInt8 × ℕ)) :
    ∀ (done : List (List UInt8 × ℕ)) (s : SpicySink) (l : List (ℕ × Block)) (n : ℕ),
    Reassembles (byteAt s.initialSeq done) s l n → (∀ w ∈ ws, WriteFits s.initialSeq w) →
    (machine env start).Along NotStale s (writeOps ws) →
    ∃ s' l' n', (machine env start).run s (writeOps ws) = some s' ∧
      Reassembles (byteAt s.initialSeq (done ++ ws)) s' l' n' := by
  induction ws with
  | nil =>
    intro done s l n h _ _
    exact ⟨s, l, n, rfl, by rwa [List.append_nil]⟩
  | cons w ws ih =>
    intro done s l n h hfits hstale
    obtain ⟨s₁, l₁, n₁, hw, h₁, hinit⟩ :=
      h.write henv hsilent (hfits w (by simp)) hstale.1
    rw [← hinit] at h₁
    obtain ⟨s', l', n', hrun, h'⟩ := ih (done ++ [w]) s₁ l₁ n₁ h₁
      (fun w' hw' => hinit ▸ hfits w' (by simp [hw'])) (hstale.2 s₁ hw)
    refine ⟨s', l', n', ?_, ?_⟩
    · rw [writeOps, List.map_cons, Machine.run_cons]
      rw [show (machine env start).next s (.write w.1 w.2) = some s₁ from hw]
      exact hrun
    · rwa [hinit, List.append_assoc, List.singleton_append] at h'

theorem sinkNew_reassembles (initialSeq id : ℕ) :
    Reassembles (byteAt initialSeq []) (sinkNew initialSeq [id]) [] 0 := by
  refine ⟨⟨sinkNew_buffers initialSeq [id], rfl, rfl, rfl, rfl, by simp, by simp, by simp,
    .inr ⟨⟨_, rfl, by simp⟩, rfl⟩, List.prefix_rfl, fun _ => rfl⟩, fun k _ => rfl, by simp⟩

/-- Whatever the order of the writes and their overlaps: the parser has been handed the
bytes up to the first missing position, or a prefix of them if it has finished
before. -/
theorem writes_reassembled (env : Env) (henv : env.Calm) (hsilent : env.Silent) (initialSeq id : ℕ)
    (ws : List (List UInt8 × ℕ)) (hfits : ∀ w ∈ ws, WriteFits initialSeq w)
    (hstale : (machine env (sinkNew initialSeq [id])).Along NotStale (sinkNew initialSeq [id])
      (writeOps ws)) :
    ∃ s n, (machine env (sinkNew initialSeq [id])).run (sinkNew initialSeq [id]) (writeOps ws) =
        some s ∧
      (∀ k < n, byteAt initialSeq ws k ≠ none) ∧ byteAt initialSeq ws n = none ∧
      handed s <+: bytesBelow (byteAt initialSeq ws) n ∧
      (s.head ≠ [] → handed s = bytesBelow (byteAt initialSeq ws) n) := by
  obtain ⟨s, l, n, hrun, h⟩ := Reassembles.run henv hsilent ws [] _ [] 0
    (sinkNew_reassembles initialSeq id) hfits hstale
  rw [List.nil_append] at h
  refine ⟨s, n, hrun, h.below, ?_, h.handed_below, h.handed_eq⟩
  rw [show byteAt initialSeq ws n = _ from h.above n le_rfl]
  exact blockByte_of_lt h.gap

end

theorem waitingEnv_silent : waitingEnv.Silent :=
  fun _ _ => rfl

/-- Three writes in reverse order, of which the second one encloses the first. -/
def reversedWrites : List (List UInt8 × ℕ) :=
  [([3, 4], 12), ([9, 9, 9, 9], 11), ([1], 10)]

theorem reversedWrites_reassembled :
    ∃ s n, (machine waitingEnv (sinkNew 10 [1])).run (sinkNew 10 [1]) (writeOps reversedWrites) =
        some s ∧
      (∀ k < n, byteAt 10 reversedWrites k ≠ none) ∧ byteAt 10 reversedWrites n = none ∧
      handed s <+: bytesBelow (byteAt 10 reversedWrites) n ∧
      (s.head ≠ [] → handed s = bytesBelow (byteAt 10 reversedWrites) n) :=
  writes_reassembled waitingEnv waitingEnv_calm waitingEnv_silent 10 1 reversedWrites
    (by unfold WriteFits; decide) (by decide)

/-- The second write repeats the end of the first one, and the sink counts those bytes
twice. -/
def staleWrites : List (List UInt8 × ℕ) :=
  [([1, 2, 3, 4, 5], 0), ([4, 5, 6, 7, 8], 3), ([9, 10, 11], 8)]

theorem staleWrites_lose_bytes :
    (∀ w ∈ staleWrites, WriteFits 0 w) ∧
    ∃ s, (machine waitingEnv (sinkNew 0 [1])).run (sinkNew 0 [1]) (writeOps staleWrites) = some s ∧
      s.head ≠ [] ∧
      ∀ n, (∀ k < n, byteAt 0 staleWrites k ≠ none) → byteAt 0 staleWrites n = none →
        handed s ≠ bytesBelow (byteAt 0 staleWrites) n := by
  refine ⟨by unfold WriteFits; decide, ?_⟩
  have hrun : ((machine waitingEnv (sinkNew 0 [1])).run (sinkNew 0 [1]) (writeOps staleWrites)).map
      (fun s => (s.head.length, handed s)) = some (1, [1, 2, 3, 4, 5, 6, 7, 8, 11]) := by
    decide
  obtain ⟨s, hs, hval⟩ := Option.map_eq_some_iff.mp hrun
  obtain ⟨hhead, hhanded⟩ := Prod.mk.injEq .. ▸ hval
  refine ⟨s, hs, ?_, fun n hbelow hn => ?_⟩
  · intro hnil
    simp [hnil] at hhead
  · have hdefined : ∀ k < 11, byteAt 0 staleWrites k ≠ none := by decide
    have hmissing : byteAt 0 staleWrites 11 = none := by decide
    have h11 : n = 11 := by
      rcases lt_trichotomy n 11 with h | h | h
      · exact absurd hn (hdefined n h)
      · exact h
      · exact absurd hmissing (hbelow 11 h)
    subst h11
    rw [hhanded]
    decide

end Hilti.Sink
