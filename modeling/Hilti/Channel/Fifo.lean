import Hilti.Channel.Model

/-! # Channels are queues

Reading an item takes the first one out of the chunks and writing one adds it behind the last, also
where this makes the reader go on to another chunk or the writer add one. -/

namespace Hilti.Channel
open Hilti.Lib
set_option autoImplicit false

variable {α : Type} (ti : TypeInfo α) {s : Shared α}

/-! ## The items in a row of chunks -/

theorem unreadFrom_cons (mem : ℕ → Chunk α) (k n : ℕ) :
    unreadFrom mem k (n + 1) = (mem k).unread ++ unreadFrom mem (k + 1) n := by
  unfold unreadFrom
  rw [List.range'_succ, List.flatMap_cons]

theorem unreadFrom_concat (mem : ℕ → Chunk α) (k n : ℕ) :
    unreadFrom mem k (n + 1) = unreadFrom mem k n ++ (mem (k + n)).unread := by
  unfold unreadFrom
  rw [List.range'_concat, List.flatMap_append, Nat.one_mul]
  simp

theorem unreadFrom_congr {mem mem' : ℕ → Chunk α} {k n : ℕ}
    (h : ∀ i, k ≤ i → i < k + n → (mem' i).unread = (mem i).unread) :
    unreadFrom mem' k n = unreadFrom mem k n := by
  unfold unreadFrom
  refine List.flatMap_congr fun i hi => ?_
  obtain ⟨hk, hn⟩ := List.mem_range'_1.mp hi
  exact h i hk hn

theorem WellFormed.items_eq_cons (h : WellFormed s) :
    s.items = (s.mem s.rc).unread ++ unreadFrom s.mem (s.rc + 1) (s.wc - s.rc) := by
  have hle := h.rc_le
  unfold Shared.items
  rw [show s.wc + 1 - s.rc = s.wc - s.rc + 1 by omega, unreadFrom_cons]

theorem WellFormed.items_eq_concat (h : WellFormed s) :
    s.items = unreadFrom s.mem s.rc (s.wc - s.rc) ++ (s.mem s.wc).unread := by
  have hle := h.rc_le
  unfold Shared.items
  rw [show s.wc + 1 - s.rc = s.wc - s.rc + 1 by omega, unreadFrom_concat,
    show s.rc + (s.wc - s.rc) = s.wc by omega]

theorem unread_eq_nil {c : Chunk α} (h : c.wcnt ≤ c.rcnt) : c.unread = [] := by
  unfold Chunk.unread
  rw [show c.wcnt - c.rcnt = 0 by omega]
  rfl

theorem unread_eq_cons {c : Chunk α} (h : c.rcnt < c.wcnt) :
    c.unread = c.data c.rcnt :: { c with rcnt := c.rcnt + 1 }.unread := by
  unfold Chunk.unread
  rw [show c.wcnt - c.rcnt = c.wcnt - (c.rcnt + 1) + 1 by omega, List.range'_succ, List.map_cons]

theorem unread_store {c : Chunk α} (item : α) (h : c.rcnt ≤ c.wcnt) :
    { c with data := Function.update c.data c.wcnt item, wcnt := c.wcnt + 1 }.unread =
      c.unread ++ [item] := by
  unfold Chunk.unread
  dsimp only
  rw [show c.wcnt + 1 - c.rcnt = c.wcnt - c.rcnt + 1 by omega, List.range'_concat, List.map_append,
    Nat.one_mul, show c.rcnt + (c.wcnt - c.rcnt) = c.wcnt by omega]
  refine congrArg₂ _ (List.map_congr_left fun i hi => ?_) (by simp)
  obtain ⟨-, hlt⟩ := List.mem_range'_1.mp hi
  exact Function.update_of_ne (by omega) _ _

/-! ## Reading -/

theorem WellFormed.rcnt_lt (h : WellFormed s) (hne : s.items ≠ [])
    (hcap : (s.mem s.rc).rcnt ≠ (s.mem s.rc).capacity) :
    (s.mem s.rc).rcnt < (s.mem s.rc).wcnt := by
  have hle := h.rcnt_le s.rc le_rfl h.rc_le
  rcases Nat.lt_or_eq_of_le h.rc_le with hlt | heq
  · have hfull := h.full s.rc le_rfl hlt
    omega
  · by_contra hnot
    refine hne ?_
    rw [h.items_eq_cons, unread_eq_nil (by omega), ← heq, Nat.sub_self]
    rfl

theorem WellFormed.moved (h : WellFormed s) (hlt : s.rc < s.wc)
    (hcap : (s.mem s.rc).rcnt = (s.mem s.rc).capacity) :
    WellFormed { s with rc := s.rc + 1, head := (s.rc + 1, 0) } ∧
      { s with rc := s.rc + 1, head := (s.rc + 1, 0) }.items = s.items := by
  have hitems : { s with rc := s.rc + 1, head := (s.rc + 1, 0) }.items = s.items := by
    have hfull := h.full s.rc le_rfl hlt
    rw [h.items_eq_cons, unread_eq_nil (by omega), List.nil_append]
    unfold Shared.items
    dsimp only
    rw [show s.wc + 1 - (s.rc + 1) = s.wc - s.rc by omega]
  refine ⟨?_, hitems⟩
  exact
    { rc_le := hlt
      allocated_eq := h.allocated_eq
      head_eq := by
        dsimp only
        rw [h.untouched (s.rc + 1) (Nat.lt_succ_self _) hlt]
      tail_eq := h.tail_eq
      next_eq := fun k hk => h.next_eq k (Nat.le_of_succ_le hk)
      full := fun k hk => h.full k (Nat.le_of_succ_le hk)
      untouched := fun k hk => h.untouched k (Nat.lt_of_succ_lt hk)
      rcnt_le := fun k hk => h.rcnt_le k (Nat.le_of_succ_le hk)
      wcnt_le := fun k hk => h.wcnt_le k (Nat.le_of_succ_le hk)
      capacity_pos := fun k hk => h.capacity_pos k (Nat.le_of_succ_le hk)
      chunkCap_pos := h.chunkCap_pos
      size_eq := by
        rw [hitems]
        exact h.size_eq }

theorem WellFormed.taken (h : WellFormed s) (hlt : (s.mem s.rc).rcnt < (s.mem s.rc).wcnt)
    {s' : Shared α}
    (hs' : s' = { s with
      mem := Function.update s.mem s.rc { s.mem s.rc with rcnt := (s.mem s.rc).rcnt + 1 }
      head := (s.head.1, s.head.2 + 1)
      size := s.size - 1 }) :
    WellFormed s' ∧ s.items = (s.mem s.rc).data (s.mem s.rc).rcnt :: s'.items := by
  have hself : s'.mem s.rc = { s.mem s.rc with rcnt := (s.mem s.rc).rcnt + 1 } := by
    rw [hs']
    exact Function.update_self ..
  have hother : ∀ k, k ≠ s.rc → s'.mem k = s.mem k := by
    intro k hk
    rw [hs']
    exact Function.update_of_ne hk ..
  have hrc : s'.rc = s.rc := by rw [hs']
  have hwc : s'.wc = s.wc := by rw [hs']
  -- reading changes only how much of the reader's chunk has been read
  have hfields : ∀ k, (s'.mem k).wcnt = (s.mem k).wcnt ∧ (s'.mem k).capacity = (s.mem k).capacity ∧
      (s'.mem k).next = (s.mem k).next := by
    intro k
    by_cases hk : k = s.rc
    · rw [hk, hself]
      exact ⟨rfl, rfl, rfl⟩
    · rw [hother k hk]
      exact ⟨rfl, rfl, rfl⟩
  have hitems : s.items = (s.mem s.rc).data (s.mem s.rc).rcnt :: s'.items := by
    have hrest : unreadFrom s'.mem (s.rc + 1) (s.wc - s.rc) =
        unreadFrom s.mem (s.rc + 1) (s.wc - s.rc) :=
      unreadFrom_congr fun i hi _ => by rw [hother i (by omega)]
    have hle := h.rc_le
    rw [h.items_eq_cons, unread_eq_cons hlt, ← hself, List.cons_append, ← hrest]
    unfold Shared.items
    rw [hrc, hwc, show s.wc + 1 - s.rc = s.wc - s.rc + 1 by omega, unreadFrom_cons]
  refine ⟨?_, hitems⟩
  refine ⟨?_, ?_, ?_, ?_, ?_, ?_, ?_, ?_, ?_, ?_, ?_, ?_⟩
  all_goals try rw [hrc]
  all_goals try rw [hwc]
  · exact h.rc_le
  · rw [hs']
    exact h.allocated_eq
  · rw [hself, hs']
    dsimp only
    rw [h.head_eq]
  · rw [(hfields s.wc).1, hs']
    exact h.tail_eq
  · intro k hk hk'
    rw [(hfields k).2.2]
    exact h.next_eq k hk hk'
  · intro k hk hk'
    rw [(hfields k).1, (hfields k).2.1]
    exact h.full k hk hk'
  · intro k hk hk'
    rw [hother k (by omega)]
    exact h.untouched k hk hk'
  · intro k hk hk'
    by_cases he : k = s.rc
    · rw [he, hself]
      exact hlt
    · rw [hother k he]
      exact h.rcnt_le k hk hk'
  · intro k hk hk'
    rw [(hfields k).1, (hfields k).2.1]
    exact h.wcnt_le k hk hk'
  · intro k hk hk'
    rw [(hfields k).2.1]
    exact h.capacity_pos k hk hk'
  · rw [hs']
    exact h.chunkCap_pos
  · have hsize := h.size_eq
    rw [hitems, List.length_cons] at hsize
    have hsize' : s'.size = s.size - 1 := by rw [hs']
    omega

theorem hltChannelReadItem_spec (h : WellFormed s) (hne : s.items ≠ []) :
    ∃ s' item, hltChannelReadItem s = some (s', item) ∧ WellFormed s' ∧
      s.items = item :: s'.items ∧ s'.capacity = s.capacity := by
  -- what is left to do once the reader is at a chunk with an item
  have htake : ∀ m : Shared α, WellFormed m → (m.mem m.rc).rcnt < (m.mem m.rc).wcnt →
      m.slot m.head = some ((m.mem m.rc).data (m.mem m.rc).rcnt) := by
    intro m hm hlt
    have hcap := hm.wcnt_le m.rc le_rfl hm.rc_le
    rw [hm.head_eq]
    exact if_pos (by dsimp only; omega)
  by_cases hcap : (s.mem s.rc).rcnt = (s.mem s.rc).capacity
  · have hlt : s.rc < s.wc := by
      refine Nat.lt_of_le_of_ne h.rc_le fun heq => hne ?_
      have hle := h.wcnt_le s.rc le_rfl h.rc_le
      rw [h.items_eq_cons, unread_eq_nil (by omega), ← heq, Nat.sub_self]
      rfl
    obtain ⟨hm, hitems⟩ := h.moved hlt hcap
    have hcap' : (s.mem (s.rc + 1)).rcnt ≠ (s.mem (s.rc + 1)).capacity := by
      have hpos := h.capacity_pos (s.rc + 1) (Nat.le_succ _) hlt
      rw [h.untouched (s.rc + 1) (Nat.lt_succ_self _) hlt]
      omega
    have hrcnt := hm.rcnt_lt (by rw [hitems]; exact hne) hcap'
    obtain ⟨hs', hread⟩ := hm.taken hrcnt rfl
    refine ⟨_, _, ?_, hs', hitems.symm.trans hread, rfl⟩
    unfold hltChannelReadItem
    rw [if_pos hcap, h.next_eq s.rc le_rfl hlt, Option.map_some, Option.bind_some,
      htake _ hm hrcnt, Option.map_some]
  · have hrcnt := h.rcnt_lt hne hcap
    obtain ⟨hs', hread⟩ := h.taken hrcnt rfl
    refine ⟨_, _, ?_, hs', hread, rfl⟩
    unfold hltChannelReadItem
    rw [if_neg hcap, Option.bind_some, htake _ h hrcnt, Option.map_some]

/-! ## Writing -/

theorem shrink_pos {free : ℤ} (hfree : free ≠ 0) (fuel : ℕ) :
    ∀ chunkCap : ℕ, 0 < chunkCap → 0 < shrink free fuel chunkCap := by
  induction fuel with
  | zero => exact fun _ h => h
  | succ fuel ih =>
    intro chunkCap h
    unfold shrink
    split
    · exact ih _ (by omega)
    · exact h

theorem WellFormed.nextChunkCap_pos (h : WellFormed s) (hfull : ¬ s.full) : 0 < nextChunkCap s := by
  have hpos := h.chunkCap_pos
  unfold nextChunkCap
  split
  · rename_i hcap
    have hne : s.size ≠ s.capacity := fun he => hfull ⟨hcap, he⟩
    exact shrink_pos (by omega) _ _ hpos
  · split <;> omega

theorem WellFormed.linked (h : WellFormed s) (hcap : (s.mem s.wc).wcnt = (s.mem s.wc).capacity)
    {chunkCap : ℕ} (hpos : 0 < chunkCap) {s' : Shared α}
    (hs' : s' = { s with
      chunkCap := chunkCap
      mem := Function.update
        (Function.update s.mem s.wc { s.mem s.wc with next := some s.allocated }) s.allocated
        (hltChunkCreate ti chunkCap)
      allocated := s.allocated + 1
      wc := s.allocated
      tail := (s.allocated, 0) }) :
    WellFormed s' ∧ s'.items = s.items := by
  have halloc := h.allocated_eq
  have hle := h.rc_le
  have hnew : s'.mem (s.wc + 1) = hltChunkCreate ti chunkCap := by
    rw [hs', ← halloc]
    exact Function.update_self ..
  have hlast : s'.mem s.wc = { s.mem s.wc with next := some (s.wc + 1) } := by
    rw [hs', ← halloc]
    dsimp only
    rw [Function.update_of_ne (by omega), Function.update_self]
  have hother : ∀ k, k < s.wc → s'.mem k = s.mem k := by
    intro k hk
    rw [hs']
    dsimp only
    rw [Function.update_of_ne (by omega), Function.update_of_ne (by omega)]
  -- the old chunks only get a new link
  have hfields : ∀ k, k ≤ s.wc → (s'.mem k).wcnt = (s.mem k).wcnt ∧
      (s'.mem k).capacity = (s.mem k).capacity ∧ (s'.mem k).rcnt = (s.mem k).rcnt ∧
      (s'.mem k).unread = (s.mem k).unread := by
    intro k hk
    rcases Nat.lt_or_eq_of_le hk with hk | rfl
    · rw [hother k hk]
      exact ⟨rfl, rfl, rfl, rfl⟩
    · rw [hlast]
      exact ⟨rfl, rfl, rfl, rfl⟩
  have hrc : s'.rc = s.rc := by rw [hs']
  have hwc : s'.wc = s.wc + 1 := by rw [hs', ← halloc]
  have hitems : s'.items = s.items := by
    unfold Shared.items
    rw [hrc, hwc, show s.wc + 1 + 1 - s.rc = s.wc + 1 - s.rc + 1 by omega, unreadFrom_concat,
      show s.rc + (s.wc + 1 - s.rc) = s.wc + 1 by omega, hnew, unread_eq_nil (Nat.le_refl 0),
      List.append_nil]
    exact unreadFrom_congr fun i _ hi => (hfields i (by omega)).2.2.2
  refine ⟨?_, hitems⟩
  refine ⟨?_, ?_, ?_, ?_, ?_, ?_, ?_, ?_, ?_, ?_, ?_, ?_⟩
  all_goals try rw [hrc]
  all_goals try rw [hwc]
  · omega
  · rw [hs', ← halloc]
  · rw [(hfields s.rc hle).2.2.1, hs']
    exact h.head_eq
  · rw [hnew, hs', ← halloc]
    rfl
  · intro k hk hk'
    rcases Nat.lt_or_eq_of_le (Nat.le_of_lt_succ hk') with hk' | rfl
    · rw [hother k hk']
      exact h.next_eq k hk hk'
    · rw [hlast]
  · intro k hk hk'
    rw [(hfields k (by omega)).1, (hfields k (by omega)).2.1]
    rcases Nat.lt_or_eq_of_le (Nat.le_of_lt_succ hk') with hk' | rfl
    · exact h.full k hk hk'
    · exact hcap
  · intro k hk hk'
    rcases Nat.lt_or_eq_of_le hk' with hk' | rfl
    · rw [(hfields k (by omega)).2.2.1]
      exact h.untouched k hk (by omega)
    · rw [hnew]
      rfl
  · intro k hk hk'
    rcases Nat.lt_or_eq_of_le hk' with hk' | rfl
    · rw [(hfields k (by omega)).1, (hfields k (by omega)).2.2.1]
      exact h.rcnt_le k hk (by omega)
    · rw [hnew]
      exact Nat.le_refl 0
  · intro k hk hk'
    rcases Nat.lt_or_eq_of_le hk' with hk' | rfl
    · rw [(hfields k (by omega)).1, (hfields k (by omega)).2.1]
      exact h.wcnt_le k hk (by omega)
    · rw [hnew]
      exact Nat.zero_le _
  · intro k hk hk'
    rcases Nat.lt_or_eq_of_le hk' with hk' | rfl
    · rw [(hfields k (by omega)).2.1]
      exact h.capacity_pos k hk (by omega)
    · rw [hnew]
      exact hpos
  · rw [hs']
    exact hpos
  · rw [hitems, hs']
    exact h.size_eq

theorem WellFormed.stored (h : WellFormed s) (item : α)
    (hlt : (s.mem s.wc).wcnt < (s.mem s.wc).capacity) :
    ∃ s', hltChannelStore s item = some s' ∧ WellFormed s' ∧ s'.items = s.items ++ [item] ∧
      s'.capacity = s.capacity := by
  have hle := h.rc_le
  have htail := h.tail_eq
  set c : Chunk α := { s.mem s.wc with
    data := Function.update (s.mem s.wc).data (s.mem s.wc).wcnt item
    wcnt := (s.mem s.wc).wcnt + 1 } with hc
  set s' : Shared α := { s with
    mem := Function.update s.mem s.wc c
    tail := (s.wc, (s.mem s.wc).wcnt + 1)
    size := s.size + 1 } with hs'
  have hstore : hltChannelStore s item = some s' := by
    unfold hltChannelStore
    rw [htail, if_pos hlt]
    simp only [Function.update_self, Function.update_idem]
    rfl
  have hself : s'.mem s.wc = c := Function.update_self ..
  have hother : ∀ k, k ≠ s.wc → s'.mem k = s.mem k := fun k hk => Function.update_of_ne hk ..
  have hfields : ∀ k, (s'.mem k).capacity = (s.mem k).capacity ∧ (s'.mem k).rcnt = (s.mem k).rcnt := by
    intro k
    by_cases hk : k = s.wc
    · rw [hk, hself]
      exact ⟨rfl, rfl⟩
    · rw [hother k hk]
      exact ⟨rfl, rfl⟩
  have hitems : s'.items = s.items ++ [item] := by
    rw [h.items_eq_concat, List.append_assoc, ← unread_store item (h.rcnt_le s.wc hle le_rfl), ← hc,
      ← hself]
    unfold Shared.items
    rw [show s'.wc + 1 - s'.rc = s.wc - s.rc + 1 by change s.wc + 1 - s.rc = _; omega,
      unreadFrom_concat, show s'.rc + (s.wc - s.rc) = s.wc by change s.rc + _ = _; omega]
    refine congrArg (· ++ (s'.mem s.wc).unread) (unreadFrom_congr fun i _ hi => ?_)
    rw [hother i (by change i < s.rc + _ at hi; omega)]
  refine ⟨s', hstore, ?_, hitems, rfl⟩
  refine ⟨h.rc_le, h.allocated_eq, ?_, ?_, ?_, ?_, ?_, ?_, ?_, ?_, h.chunkCap_pos, ?_⟩
  · rw [(hfields s'.rc).2]
    exact h.head_eq
  · change (s.wc, _) = (s.wc, (s'.mem s.wc).wcnt)
    rw [hself]
  · intro k hk hk'
    rw [hother k (Nat.ne_of_lt hk')]
    exact h.next_eq k hk hk'
  · intro k hk hk'
    rw [hother k (Nat.ne_of_lt hk')]
    exact h.full k hk hk'
  · intro k hk hk'
    rw [(hfields k).2]
    exact h.untouched k hk hk'
  · intro k hk hk'
    rw [(hfields k).2]
    have hold := h.rcnt_le k hk hk'
    by_cases he : k = s.wc
    · rw [he, hself]
      rw [he] at hold
      exact Nat.le_succ_of_le hold
    · rw [hother k he]
      exact hold
  · intro k hk hk'
    rw [(hfields k).1]
    by_cases he : k = s.wc
    · rw [he, hself]
      exact hlt
    · rw [hother k he]
      exact h.wcnt_le k hk hk'
  · intro k hk hk'
    rw [(hfields k).1]
    exact h.capacity_pos k hk hk'
  · have hsize := h.size_eq
    rw [hitems, List.length_append]
    change s.size + 1 = _
    rw [hsize]
    rfl

theorem hltChannelGrow_spec (h : WellFormed s) (hfull : ¬ s.full) :
    WellFormed (hltChannelGrow ti s) ∧ (hltChannelGrow ti s).items = s.items ∧
      (hltChannelGrow ti s).capacity = s.capacity ∧
      ((hltChannelGrow ti s).mem (hltChannelGrow ti s).wc).wcnt <
        ((hltChannelGrow ti s).mem (hltChannelGrow ti s).wc).capacity := by
  unfold hltChannelGrow
  have hpos := h.nextChunkCap_pos hfull
  split
  · rename_i hcap
    obtain ⟨hwf, hitems⟩ := h.linked ti hcap hpos rfl
    refine ⟨hwf, hitems, rfl, ?_⟩
    dsimp only
    rw [Function.update_self]
    exact hpos
  · rename_i hcap
    have hle := h.wcnt_le s.wc h.rc_le le_rfl
    exact ⟨h, rfl, rfl, Nat.lt_of_le_of_ne hle hcap⟩

theorem hltChannelWriteItem_spec (h : WellFormed s) (hfull : ¬ s.full) (item : α) :
    ∃ s', hltChannelWriteItem ti s item = some (s', (ti.cloneDeep item).2) ∧ WellFormed s' ∧
      s'.items = s.items ++ [(ti.cloneDeep item).1] ∧ s'.capacity = s.capacity := by
  obtain ⟨hgrow, hitems, hcapacity, hlt⟩ := hltChannelGrow_spec ti h hfull
  obtain ⟨s', hstore, hwf, hitems', hcapacity'⟩ := hgrow.stored (ti.cloneDeep item).1 hlt
  refine ⟨s', ?_, hwf, by rw [hitems', hitems], hcapacity'.trans hcapacity⟩
  unfold hltChannelWriteItem
  rw [hstore, Option.map_some]

end Hilti.Channel
