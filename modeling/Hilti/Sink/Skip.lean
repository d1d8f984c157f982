import Hilti.Sink.Positions
import Hilti.Sink.Reassembly

/-!
# What a skip delivers

After a skip a sink should deliver at once what it has buffered from the new position on, and
the next byte it delivers should be the one at that position.  It delivers whole chunks that
start where the last one ended, so what it does depends on the chunk that has the new
position.
-/

namespace Hilti.Sink

open Hilti.Lib Hilti.Lib.LinkedList

set_option autoImplicit false

/-! ## Bytes and their positions -/

/-- The bytes of blocks, with their positions. -/
def positioned (bs : List Block) : List (UInt8 × ℕ) :=
  bs.flatMap fun b => (b.data.getD []).zipIdx b.rseq

/-- `d` are the bytes at `r` and the positions that follow, up to the first one without a
byte. -/
def Contiguous (l : List Block) (r : ℕ) (d : List UInt8) : Prop :=
  ∀ i ≤ d.length, blockByte l (r + i) = d[i]?

section

variable {b : Block} {l bs : List Block} {r p : ℕ} {x : UInt8}

theorem Block.at_eq_some :
    b.at p = some x ↔ b.rseq ≤ p ∧ (b.data.getD [])[p - b.rseq]? = some x := by
  unfold Block.at
  split
  · rename_i h
    simp [h]
  · rename_i h
    simp [h]

theorem Block.hasByte_iff : b.HasByte p ↔ b.at p ≠ none := by
  rw [Option.ne_none_iff_exists']
  constructor
  · rintro ⟨d, hd, hle, hlt⟩
    have hsub : p - b.rseq < d.length := by omega
    exact ⟨d[p - b.rseq], Block.at_eq_some.mpr ⟨hle, by
      rw [hd, Option.getD_some, List.getElem?_eq_getElem hsub]⟩⟩
  · rintro ⟨x, hx⟩
    obtain ⟨hle, hget⟩ := Block.at_eq_some.mp hx
    cases hd : b.data with
    | none => simp [hd] at hget
    | some d =>
      rw [hd, Option.getD_some] at hget
      obtain ⟨hlt, -⟩ := List.getElem?_eq_some_iff.mp hget
      exact ⟨d, hd, hle, by omega⟩

theorem Block.Fits.of_at (hb : b.Fits) (h : b.at p = some x) :
    b.rseq ≤ p ∧ p < b.rupper ∧ b.data ≠ none := by
  have hbyte : b.HasByte p := Block.hasByte_iff.mpr (by simp [h])
  have hlt := hb.lt_rupper hbyte
  obtain ⟨d, hd, hle, -⟩ := hbyte
  exact ⟨hle, hlt, by simp [hd]⟩

theorem mem_positioned : (x, p) ∈ positioned bs ↔ ∃ b ∈ bs, b.at p = some x := by
  simp only [positioned, List.mem_flatMap, List.mk_mem_zipIdx_iff_le_and_getElem?_sub,
    Block.at_eq_some]

theorem positioned_cons (b : Block) (bs : List Block) :
    positioned (b :: bs) = (b.data.getD []).zipIdx b.rseq ++ positioned bs :=
  List.flatMap_cons

theorem positioned_append (bs bs' : List Block) :
    positioned (bs ++ bs') = positioned bs ++ positioned bs' :=
  List.flatMap_append

theorem mem_of_blockByte (h : blockByte l p = some x) : ∃ b ∈ l, b.at p = some x :=
  List.exists_of_findSome?_eq_some h

theorem blockByte_of_mem (hl : Ordered l) (hfits : ∀ b ∈ l, b.Fits) (hb : b ∈ l)
    (h : b.at p = some x) : blockByte l p = some x := by
  induction l with
  | nil => simp at hb
  | cons c l ih =>
    rw [blockByte_cons]
    rcases List.mem_cons.mp hb with rfl | hmem
    · rw [h]
      rfl
    · have hle := hl.head_le b hmem
      have hbp := (hfits b hb).of_at h
      have hnone : c.at p = none := by
        by_contra hne
        obtain ⟨y, hy⟩ := Option.ne_none_iff_exists'.mp hne
        have hcp := (hfits c (by simp)).of_at hy
        omega
      rw [hnone, Option.none_or]
      exact ih hl.tail (fun b hb => hfits b (by simp [hb])) hmem

theorem hasData_of_blockByte (hfits : ∀ b ∈ l, b.Fits) (h : blockByte l p = some x) :
    HasData l p := by
  obtain ⟨b, hb, hat⟩ := mem_of_blockByte h
  obtain ⟨hle, hlt, hdata⟩ := (hfits b hb).of_at hat
  exact ⟨b, hb, hdata, hle, hlt⟩

theorem positioned_sorted (hsorted : bs.Pairwise fun x y => x.rupper ≤ y.rseq)
    (hfits : ∀ b ∈ bs, b.Fits) : (positioned bs).Pairwise fun x y => x.2 < y.2 := by
  induction bs with
  | nil => exact .nil
  | cons b bs ih =>
    obtain ⟨hhead, htail⟩ := List.pairwise_cons.mp hsorted
    rw [positioned_cons]
    refine List.pairwise_append.mpr ⟨?_, ih htail fun b hb => hfits b (by simp [hb]), ?_⟩
    · have hrange : (((b.data.getD []).zipIdx b.rseq).map Prod.snd).Pairwise (· < ·) := by
        rw [List.zipIdx_map_snd]
        exact List.pairwise_lt_range'
      exact List.pairwise_map.mp hrange
    · rintro ⟨x, p⟩ hx ⟨y, q⟩ hy
      obtain ⟨c, hc, hcq⟩ := mem_positioned.mp hy
      have hbp : b.at p = some x :=
        Block.at_eq_some.mpr (List.mk_mem_zipIdx_iff_le_and_getElem?_sub.mp hx)
      have h1 := (hfits b (by simp)).of_at hbp
      have h2 := (hfits c (by simp [hc])).of_at hcq
      have h3 := hhead c hc
      change p < q
      omega

theorem eq_zipIdx {ys : List (UInt8 × ℕ)} (hsorted : ys.Pairwise fun x y => x.2 < y.2)
    (hge : ∀ y ∈ ys, r ≤ y.2) (hclosed : ∀ y ∈ ys, ∀ q, r ≤ q → q < y.2 → ∃ z ∈ ys, z.2 = q) :
    ys = (ys.map Prod.fst).zipIdx r := by
  induction ys generalizing r with
  | nil => rfl
  | cons y ys ih =>
    obtain ⟨hhead, htail⟩ := List.pairwise_cons.mp hsorted
    have hle : r ≤ y.2 := hge y (by simp)
    have hy : y.2 = r := by
      by_contra hne
      obtain ⟨z, hz, hzr⟩ := hclosed y (by simp) r le_rfl (by omega)
      rcases List.mem_cons.mp hz with rfl | hz
      · exact hne hzr
      · have := hhead z hz
        omega
    have hrest : ys = (ys.map Prod.fst).zipIdx (r + 1) := by
      refine ih htail (fun z hz => ?_) fun z hz q hq hqz => ?_
      · have := hhead z hz
        omega
      · obtain ⟨w, hw, hwq⟩ := hclosed z (by simp [hz]) q (by omega) hqz
        rcases List.mem_cons.mp hw with rfl | hw
        · omega
        · exact ⟨w, hw, hwq⟩
    rw [List.map_cons, List.zipIdx_cons, ← hrest, ← hy]

end

/-! ## What is delivered from a position on -/

section

variable {l : List Block} {r p cur : ℕ} {x : UInt8}

theorem not_behind_data (hfits : ∀ b ∈ l, b.Fits) (hno : ¬ HasData l r) :
    ¬ (r ≤ p ∧ blockByte l p = some x ∧ ∀ q, r ≤ q → q < p → HasData l q) := by
  rintro ⟨hrp, hbyte, hall⟩
  rcases hrp.lt_or_eq with hlt | rfl
  · exact hno (hall r le_rfl hlt)
  · exact hno (hasData_of_blockByte hfits hbyte)

theorem mem_positioned_inOrder (hl : Ordered l) (hfits : ∀ b ∈ l, b.Fits)
    (hbefore : ∀ b ∈ l, b.rseq < r → b.rupper ≤ r) :
    (x, p) ∈ positioned (inOrder r cur l).1 ↔
      r ≤ p ∧ blockByte l p = some x ∧ ∀ q, r ≤ q → q < p → HasData l q := by
  induction l generalizing r cur with
  | nil => simp [inOrder, positioned, blockByte]
  | cons b l ih =>
    have hb := (hl.ok b (by simp)).1
    have hle := hl.head_le
    have hfits' : ∀ c ∈ l, c.Fits := fun c hc => hfits c (by simp [hc])
    unfold inOrder
    split
    · -- a block before `r`
      rename_i hlt
      have hend := hbefore b (by simp) hlt
      rw [ih hl.tail hfits' (fun c hc => hbefore c (by simp [hc]))]
      refine and_congr_right fun hrp => and_congr ?_ ?_
      · have hnone : b.at p = none := by
          by_contra hne
          obtain ⟨y, hy⟩ := Option.ne_none_iff_exists'.mp hne
          have := (hfits b (by simp)).of_at hy
          omega
        rw [blockByte_cons, hnone, Option.none_or]
      · refine forall_congr' fun q => imp_congr_right fun hrq => imp_congr_right fun _ => ?_
        rw [hasData_cons, or_iff_right (by omega)]
    split
    · rename_i heq
      cases hdata : b.data with
      | none =>
        refine iff_of_false (by simp [positioned]) (not_behind_data hfits ?_)
        rw [hasData_cons]
        rintro (⟨hd, -⟩ | ⟨c, hc, -, hcr, -⟩)
        · exact hd hdata
        · have := hle c hc
          omega
      | some d =>
        have hbehind : ∀ c ∈ l, c.rseq < b.rupper → c.rupper ≤ b.rupper := fun c hc hlt => by
          have := hle c hc
          omega
        have hrest : (x, p) ∈ positioned (inOrder b.rupper b.rupper l).1 ↔ b.rupper ≤ p ∧
            blockByte l p = some x ∧ ∀ q, b.rupper ≤ q → q < p → HasData l q :=
          ih hl.tail hfits' hbehind
        have hmem : (x, p) ∈ positioned (b :: (inOrder b.rupper b.rupper l).1) ↔
            b.at p = some x ∨ (x, p) ∈ positioned (inOrder b.rupper b.rupper l).1 := by
          simp only [mem_positioned, List.mem_cons, or_and_right, exists_or, exists_eq_left]
        change (x, p) ∈ positioned (b :: (inOrder b.rupper b.rupper l).1) ↔ _
        rw [hmem, hrest, blockByte_cons]
        constructor
        · rintro (hat | ⟨hup, hbyte, hall⟩)
          · have hin := (hfits b (by simp)).of_at hat
            refine ⟨by omega, by rw [hat]; rfl, fun q hrq hqp => ?_⟩
            exact hasData_cons.mpr (.inl ⟨hin.2.2, by omega, by omega⟩)
          · refine ⟨by omega, ?_, fun q hrq hqp => ?_⟩
            · cases hat : b.at p with
              | none => exact hbyte
              | some y =>
                have := (hfits b (by simp)).of_at hat
                omega
            · by_cases hqu : q < b.rupper
              · exact hasData_cons.mpr (.inl ⟨by simp [hdata], by omega, hqu⟩)
              · exact hasData_cons.mpr (.inr (hall q (by omega) hqp))
        · rintro ⟨hrp, hbyte, hall⟩
          cases hat : b.at p with
          | some y =>
            rw [hat] at hbyte
            exact .inl hbyte
          | none =>
            rw [hat, Option.none_or] at hbyte
            obtain ⟨c, hc, hcp⟩ := mem_of_blockByte hbyte
            have hcle := hle c hc
            have hcp' := ((hfits' c hc).of_at hcp).1
            refine .inr ⟨by omega, hbyte, fun q hq hqp => ?_⟩
            rcases hasData_cons.mp (hall q (by omega) hqp) with h | h
            · omega
            · exact h
    · refine iff_of_false (by simp [positioned]) (not_behind_data hfits ?_)
      rintro ⟨c, hc, -, hcr, -⟩
      rcases List.mem_cons.mp hc with rfl | hc
      · omega
      · have := hle c hc
        omega

/-- No position is left out in front of another byte in the data that follows from `r` on. -/
def Unbroken (l : List Block) (r : ℕ) : Prop :=
  ∀ p, blockByte l p ≠ none → (∀ q, r ≤ q → q < p → HasData l q) →
    ∀ q, r ≤ q → q < p → blockByte l q ≠ none

theorem contiguous_iff_unbroken (hl : Ordered l) (hfits : ∀ b ∈ l, b.Fits)
    (hbefore : ∀ b ∈ l, b.rseq < r → b.rupper ≤ r) :
    (∃ d, Contiguous l r d ∧ positioned (inOrder r cur l).1 = d.zipIdx r) ↔ Unbroken l r := by
  have hmem : ∀ x p, (x, p) ∈ positioned (inOrder r cur l).1 ↔
      r ≤ p ∧ blockByte l p = some x ∧ ∀ q, r ≤ q → q < p → HasData l q :=
    fun x p => mem_positioned_inOrder hl hfits hbefore
  constructor
  · rintro ⟨d, hd, heq⟩ p hp hall q hrq hqp
    obtain ⟨x, hx⟩ := Option.ne_none_iff_exists'.mp hp
    have hin := (hmem x p).mpr ⟨by omega, hx, hall⟩
    rw [heq, List.mk_mem_zipIdx_iff_le_and_getElem?_sub] at hin
    obtain ⟨hlt, -⟩ := List.getElem?_eq_some_iff.mp hin.2
    have hqd : q - r < d.length := by omega
    have hq := hd (q - r) (by omega)
    rw [Nat.add_sub_cancel' hrq, List.getElem?_eq_getElem hqd] at hq
    simp [hq]
  · intro hunb
    have hsorted : (positioned (inOrder r cur l).1).Pairwise fun x y => x.2 < y.2 :=
      positioned_sorted (inOrder_spec hl r cur).sorted fun b hb => hfits b (inOrder_mem hb).1
    have hys : positioned (inOrder r cur l).1 =
        ((positioned (inOrder r cur l).1).map Prod.fst).zipIdx r := by
      refine eq_zipIdx hsorted (fun y hy => ((hmem y.1 y.2).mp hy).1) fun y hy q hrq hqy => ?_
      obtain ⟨-, hbyte, hall⟩ := (hmem y.1 y.2).mp hy
      obtain ⟨z, hz⟩ := Option.ne_none_iff_exists'.mp (hunb y.2 (by simp [hbyte]) hall q hrq hqy)
      exact ⟨(z, q), (hmem z q).mpr ⟨hrq, hz, fun q' h1 h2 => hall q' h1 (h2.trans hqy)⟩, rfl⟩
    set d := (positioned (inOrder r cur l).1).map Prod.fst with hd
    have hget : ∀ x p, (x, p) ∈ positioned (inOrder r cur l).1 ↔ r ≤ p ∧ d[p - r]? = some x := by
      intro x p
      rw [hys, List.mk_mem_zipIdx_iff_le_and_getElem?_sub]
    have hbyte : ∀ i < d.length, blockByte l (r + i) = d[i]? := by
      intro i hi
      have hin := (hget d[i] (r + i)).mpr ⟨by omega, by simp [hi]⟩
      rw [((hmem _ _).mp hin).2.1, List.getElem?_eq_getElem hi]
    refine ⟨d, fun i hi => ?_, hys⟩
    rcases hi.lt_or_eq with hlt | rfl
    · exact hbyte i hlt
    -- there is no byte behind the last one that is delivered
    rw [List.getElem?_eq_none le_rfl]
    by_contra hne
    obtain ⟨x, hx⟩ := Option.ne_none_iff_exists'.mp hne
    have hin := (hmem x (r + d.length)).mpr ⟨by omega, hx, fun q hrq hq => by
      have hqd : q - r < d.length := by omega
      have hq' := hbyte (q - r) hqd
      rw [Nat.add_sub_cancel' hrq, List.getElem?_eq_getElem hqd] at hq'
      exact hasData_of_blockByte hfits hq'⟩
    rw [hget, Nat.add_sub_cancel_left, List.getElem?_eq_none le_rfl] at hin
    simp at hin

theorem Ordered.eq_of_common {b c : Block} (hl : Ordered l) (hb : b ∈ l) (hc : c ∈ l)
    (hbp : b.rseq ≤ p ∧ p < b.rupper) (hcp : c.rseq ≤ p ∧ p < c.rupper) : b = c := by
  induction l with
  | nil => simp at hb
  | cons a l ih =>
    have hle := hl.head_le
    rcases List.mem_cons.mp hb with rfl | hb'
    · rcases List.mem_cons.mp hc with rfl | hc'
      · rfl
      · have := hle c hc'
        omega
    · rcases List.mem_cons.mp hc with rfl | hc'
      · have := hle b hb'
        omega
      · exact ih hl.tail hb' hc'

theorem inOrder_of_not_covered (hl : Ordered l) (hno : ¬ Covered l r) :
    inOrder r cur l = ([], r, cur) := by
  induction l with
  | nil => rfl
  | cons b l ih =>
    obtain ⟨hb, hno'⟩ := not_or.mp (mt covered_cons.mpr hno)
    have hok := (hl.ok b (by simp)).1
    unfold inOrder
    split
    · exact ih hl.tail hno'
    · rw [if_neg (by omega)]

theorem inOrder_passes {b : Block} (cur : ℕ) (hl : Ordered l) (hb : b ∈ l) (hr : b.rseq = r) :
    r < (inOrder r cur l).2.2 := by
  induction l with
  | nil => simp at hb
  | cons c l ih =>
    have hok := (hl.ok c (by simp)).1
    have hle := hl.head_le
    unfold inOrder
    split
    · rename_i hlt
      rcases List.mem_cons.mp hb with rfl | hb
      · omega
      · exact ih hl.tail hb
    split
    · split
      · change r < c.rupper
        omega
      · have hspec := inOrder_spec hl.tail c.rupper c.rupper
        have hlast := hspec.last_le
        rcases hspec.cur_eq with ⟨-, hcur⟩ | hcur
        · change r < (inOrder c.rupper c.rupper l).2.2
          omega
        · change r < (inOrder c.rupper c.rupper l).2.2
          omega
    · rcases List.mem_cons.mp hb with rfl | hmem
      · omega
      · have := hle b hmem
        omega

theorem inOrder_head {b : Block} (hl : Ordered l) (hb : b ∈ l) (hr : b.rseq = r)
    (hdata : b.data ≠ none) : ∃ rest, (inOrder r cur l).1 = b :: rest := by
  induction l with
  | nil => simp at hb
  | cons c l ih =>
    have hok := (hl.ok c (by simp)).1
    have hle := hl.head_le
    unfold inOrder
    rcases List.mem_cons.mp hb with rfl | hb
    · rw [if_neg (by omega), if_pos hr]
      cases hd : b.data with
      | none => exact absurd hd hdata
      | some d => exact ⟨_, rfl⟩
    · have := hle b hb
      rw [if_pos (by omega)]
      exact ih hl.tail hb

/-- Delivery can start at `r`: no chunk that starts before has the byte at `r`, and a chunk
that starts at `r` has it, and no position is left out in the data that follows. -/
def Resumes (l : List Block) (r : ℕ) : Prop :=
  (∀ b ∈ l, b.rseq < r → ¬ b.HasByte r) ∧
    ∀ b ∈ l, b.rseq = r → b.HasByte r ∧ Unbroken l r

theorem resumes_iff (hl : Ordered l) (hfits : ∀ b ∈ l, b.Fits) :
    ((∃ d, Contiguous l r d ∧ positioned (inOrder r r l).1 = d.zipIdx r) ∧
      (positioned (inOrder r r l).1 = [] → (inOrder r r l).2.2 = r)) ↔ Resumes l r := by
  have hnone : blockByte l r = none → Contiguous l r [] := by
    intro h i hi
    obtain rfl : i = 0 := by simpa using hi
    exact h
  by_cases hacross : ∃ w ∈ l, w.rseq < r ∧ r < w.rupper
  · -- a chunk lies across `r`: nothing is delivered
    obtain ⟨w, hw, hlt, hlt'⟩ := hacross
    rw [inOrder_across r hl hw hlt hlt']
    constructor
    · rintro ⟨⟨d, hd, heq⟩, -⟩
      have hnil : d = [] := List.zipIdx_eq_nil_iff.mp heq.symm
      subst hnil
      have hno : blockByte l r = none := hd 0 le_rfl
      refine ⟨fun b hb _ hbyte => ?_, fun b hb hr => ?_⟩
      · obtain ⟨x, hx⟩ := Option.ne_none_iff_exists'.mp (Block.hasByte_iff.mp hbyte)
        rw [blockByte_of_mem hl hfits hb hx] at hno
        cases hno
      · have hok := (hl.ok b hb).1
        have := hl.eq_of_common (p := r) hb hw ⟨by omega, by omega⟩ ⟨by omega, hlt'⟩
        subst this
        omega
    · rintro ⟨hfirst, -⟩
      refine ⟨⟨[], hnone ?_, rfl⟩, fun _ => rfl⟩
      by_contra hne
      obtain ⟨x, hx⟩ := Option.ne_none_iff_exists'.mp hne
      obtain ⟨b, hb, hat⟩ := mem_of_blockByte hx
      have hin := (hfits b hb).of_at hat
      have := hl.eq_of_common (p := r) hb hw ⟨hin.1, hin.2.1⟩ ⟨by omega, hlt'⟩
      subst this
      exact hfirst b hb hlt (Block.hasByte_iff.mpr (by simp [hat]))
  have hbefore : ∀ b ∈ l, b.rseq < r → b.rupper ≤ r := fun b hb hlt =>
    not_lt.mp fun hlt' => hacross ⟨b, hb, hlt, hlt'⟩
  have hfirst : ∀ b ∈ l, b.rseq < r → ¬ b.HasByte r := fun b hb hlt hbyte => by
    have := (hfits b hb).lt_rupper hbyte
    have := hbefore b hb hlt
    omega
  by_cases hat : ∃ b ∈ l, b.rseq = r
  · -- a chunk starts at `r`
    obtain ⟨b, hb, hr⟩ := hat
    have hok := (hl.ok b hb).1
    constructor
    · rintro ⟨hnow, hnext⟩
      refine ⟨hfirst, fun c hc hcr => ⟨?_, (contiguous_iff_unbroken hl hfits hbefore).mp hnow⟩⟩
      obtain ⟨d, hd, heq⟩ := hnow
      cases d with
      | nil =>
        have := hnext heq
        have := inOrder_passes r hl hb hr
        omega
      | cons x d =>
        have hx : blockByte l r = some x := hd 0 (Nat.zero_le _)
        obtain ⟨e, he, hex⟩ := mem_of_blockByte hx
        have hin := (hfits e he).of_at hex
        have hcok := (hl.ok c hc).1
        have := hl.eq_of_common (p := r) he hc ⟨hin.1, hin.2.1⟩ ⟨by omega, by omega⟩
        subst this
        exact Block.hasByte_iff.mpr (by simp [hex])
    · rintro ⟨-, hsecond⟩
      obtain ⟨hbyte, hunb⟩ := hsecond b hb hr
      refine ⟨(contiguous_iff_unbroken hl hfits hbefore).mpr hunb, fun hnil => ?_⟩
      obtain ⟨x, hx⟩ := Option.ne_none_iff_exists'.mp (Block.hasByte_iff.mp hbyte)
      have hin : (x, r) ∈ positioned (inOrder r r l).1 :=
        (mem_positioned_inOrder hl hfits hbefore).mpr
          ⟨le_rfl, blockByte_of_mem hl hfits hb hx, fun q h1 h2 => by omega⟩
      rw [hnil] at hin
      simp at hin
  · -- no chunk has the position `r`
    have hno : ¬ Covered l r := by
      rintro ⟨b, hb, hle, hlt⟩
      rcases hle.lt_or_eq with hlt' | heq
      · exact hacross ⟨b, hb, hlt', hlt⟩
      · exact hat ⟨b, hb, heq⟩
    rw [inOrder_of_not_covered hl hno]
    refine iff_of_true ⟨⟨[], hnone ?_, rfl⟩, fun _ => rfl⟩
      ⟨hfirst, fun b hb hr => absurd ⟨b, hb, hr⟩ hat⟩
    by_contra hne
    obtain ⟨x, hx⟩ := Option.ne_none_iff_exists'.mp hne
    exact hno (hasData_of_blockByte hfits hx).covered

end

/-! ## Waiting for a position -/

/-- The operation does not move a sink that waits for position `r`: it adds data, trims, or
reports a gap that leaves out `r`. -/
def LeavesOpen (r : ℕ) (s : SpicySink) : Op → Prop
  | .write _ seq => s.initialSeq ≤ seq
  | .append _ => True
  | .gap seq len =>
    s.initialSeq ≤ seq ∧ (s.initialSeq + r < seq ∨ seq + len ≤ s.initialSeq + r)
  | .trim seq => s.initialSeq ≤ seq
  | .skip _ => False
  | .close => False

instance (r : ℕ) (s : SpicySink) : (op : Op) → Decidable (LeavesOpen r s op)
  | .write _ _ => inferInstanceAs (Decidable (_ ≤ _))
  | .append _ => isTrue trivial
  | .gap _ _ => inferInstanceAs (Decidable (_ ∧ _))
  | .trim _ => inferInstanceAs (Decidable (_ ≤ _))
  | .skip _ => isFalse id
  | .close => isFalse id

/-- The sink has delivered nothing from `r` on yet, and a chunk that starts there has the
byte. -/
structure Waits (s : SpicySink) (l : List (ℕ × Block)) (r : ℕ) : Prop where
  listed : Listed s l
  last_eq : s.lastReassemRseq = r
  cur_eq : s.curRseq = r
  starts : ∀ b ∈ vals l, b.rseq = r → b.HasByte r

section

variable {env : Env} {s s' : SpicySink}

theorem insertBlock_starts {l : List Block} {r u : ℕ} {d : List UInt8} {b : Block}
    (hlen : r + d.length = u) (hr : r < u) (hb : b ∈ insertBlock l r u (some d)) :
    b ∈ l ∨ b.HasByte b.rseq := by
  induction l generalizing r d with
  | nil =>
    obtain rfl : b = ⟨r, u, some d⟩ := by simpa [insertBlock] using hb
    exact .inr ⟨d, rfl, le_rfl, show r < r + d.length by omega⟩
  | cons c l ih =>
    unfold insertBlock at hb
    split at hb
    · rcases List.mem_cons.mp hb with rfl | hb
      · exact .inl (by simp)
      · exact (ih hlen hr hb).imp (fun h => by simp [h]) id
    split at hb
    · rcases List.mem_cons.mp hb with rfl | hb
      · exact .inr ⟨d, rfl, le_rfl, show r < r + d.length by omega⟩
      · exact .inl hb
    rename_i hcr hcu
    rcases List.mem_append.mp hb with hb | hb
    · unfold prefixBlock at hb
      simp only at hb
      split at hb
      · rename_i hrc
        obtain rfl : b = _ := List.mem_singleton.mp hb
        refine .inr ⟨_, rfl, le_rfl, ?_⟩
        change r < r + (d.take (c.rseq - r)).length
        rw [List.length_take]
        omega
      · simp at hb
    · rcases List.mem_cons.mp hb with rfl | hb
      · exact .inl (by simp)
      split at hb
      · rename_i hgo
        refine (ih ?_ hgo.1 hb).imp (fun h => by simp [h]) id
        simp only [Option.getD_some, List.length_drop]
        have := hgo.1
        omega
      · exact .inl (by simp [hb])

theorem Op.block_length {op : Op} {d : List UInt8} {r len : ℕ}
    (h : op.block s = some (some d, r, len)) : d.length = len := by
  cases op with
  | write data seq =>
    simp only [Op.block] at h
    split at h
    · cases h
      rfl
    · cases h
  | append data =>
    cases h
    rfl
  | gap seq n =>
    simp only [Op.block] at h
    split at h
    · cases h
    · cases h
  | skip seq => cases h
  | trim seq => cases h
  | close => cases h

theorem InRange.block_lt {op : Op} {data : Option (List UInt8)} {r len : ℕ} (h : InRange s op)
    (hblock : op.block s = some (data, r, len)) : r + len < 2 ^ 64 := by
  cases op with
  | write d seq =>
    simp only [Op.block] at hblock
    split at hblock
    · cases hblock
      exact h.2.2
    · cases hblock
  | append d =>
    cases hblock
    exact h.2
  | gap seq n =>
    simp only [Op.block] at hblock
    split at hblock
    · cases hblock
      exact h.2
    · cases hblock
  | skip seq => cases hblock
  | trim seq => cases hblock
  | close => cases hblock

theorem SafeBlock.upper_lt {data : Option (List UInt8)} {r len : ℕ} (h : SafeBlock s data r len)
    (hu : r + len < 2 ^ 64) (henq : Enqueues s r len) : upper s r len < 2 ^ 64 := by
  obtain ⟨hlen, hfast, htrim⟩ := henq
  rcases h with h | h | h | ⟨hfirst, hwrap⟩ | ⟨hfirst, -, -⟩
  · exact absurd h hlen
  · exact absurd h hfast
  · omega
  · rw [upper, if_pos hfirst]
    omega
  · rw [upper, if_neg hfirst]
    exact hu

theorem LeavesOpen.gap {op : Op} {p r len : ℕ} (h : LeavesOpen r s op)
    (hblock : op.block s = some (none, p, len)) : r < p ∨ p + len ≤ r := by
  cases op with
  | write data seq =>
    simp only [Op.block] at hblock
    split at hblock
    · cases hblock
    · cases hblock
  | append data => cases hblock
  | gap seq n =>
    obtain ⟨hseq, hout⟩ := h
    simp only [Op.block, if_pos hseq] at hblock
    cases hblock
    omega
  | skip seq => cases hblock
  | trim seq => cases hblock
  | close => cases hblock

theorem Waits.inserted {l : List (ℕ × Block)} {op : Op} {r p len : ℕ}
    {data : Option (List UInt8)} {b : Block} (h : Waits s l r) (hopen : LeavesOpen r s op)
    (hblock : op.block s = some (data, p, len)) (hu : p + len < 2 ^ 64)
    (henq : Enqueues s p len)
    (hb : b ∈ insertBlock (vals l) (max p s.trimRseq) (upper s p len) (clip s data p))
    (hr : b.rseq = r) : b.HasByte r := by
  obtain ⟨hlen, -, htrim⟩ := henq
  cases data with
  | some d =>
    have hd := Op.block_length hblock
    have hrest : (d.drop (s.trimRseq - p)).length = p + len - max p s.trimRseq := by
      rw [List.length_drop]
      omega
    have hmem : b ∈ vals l ∨ b.HasByte b.rseq := by
      by_cases hfirst : s.chunks.first = none
      · obtain rfl := h.listed.first_eq_none.mp hfirst
        obtain rfl : b = ⟨max p s.trimRseq, upper s p len, some (d.drop (s.trimRseq - p))⟩ := by
          simpa [insertBlock, vals, clip] using hb
        refine .inr ⟨_, rfl, le_rfl, ?_⟩
        change max p s.trimRseq < max p s.trimRseq + (d.drop (s.trimRseq - p)).length
        omega
      · have hclip : clip s (some d) p = some (d.drop (s.trimRseq - p)) := rfl
        rw [upper, if_neg hfirst, hclip] at hb
        exact insertBlock_starts (by omega) (by omega) hb
    rcases hmem with hold | hnew
    · exact h.starts b hold hr
    · rwa [hr] at hnew
  | none =>
    have hout := hopen.gap hblock
    by_cases hfirst : s.chunks.first = none
    · obtain rfl := h.listed.first_eq_none.mp hfirst
      obtain rfl : b = ⟨max p s.trimRseq, upper s p len, none⟩ := by
        simpa [insertBlock, vals, clip] using hb
      change max p s.trimRseq = r at hr
      omega
    · rw [upper, if_neg hfirst] at hb
      rcases insertBlock_mem h.listed.ordered hb with hold | hge
      · exact h.starts b hold hr
      rcases insertBlock_rupper hb with hold | hle
      · exact h.starts b hold hr
      · have hord : Ordered (insertBlock (vals l) (max p s.trimRseq) (p + len) (clip s none p)) :=
          insertBlock_ordered h.listed.ordered (by omega) hu
        have hok := (hord.ok b hb).1
        omega

theorem head_positioned {b : Block} {bs : List Block} {r : ℕ} (hr : b.rseq = r)
    (hbyte : b.HasByte r) : ∃ x rest, positioned (b :: bs) = (x, r) :: rest := by
  obtain ⟨d, hd, -, hlt⟩ := hbyte
  cases d with
  | nil =>
    rw [List.length_nil] at hlt
    omega
  | cons x d =>
    refine ⟨x, d.zipIdx (r + 1) ++ positioned bs, ?_⟩
    rw [positioned_cons, hd, Option.getD_some, hr, List.zipIdx_cons, List.cons_append]

theorem Waits.step {l : List (ℕ × Block)} {r fuel : ℕ} {op : Op} (h : Waits s l r)
    (hrange : InRange s op) (hsafe : Safe s op) (hopen : LeavesOpen r s op)
    (hf : 4 * l.length + 10 ≤ fuel) (hrun : perform env fuel op s = some s') :
    (handedBy env fuel op s = [] ∧ ∃ l', Waits s' l' r) ∨
      ∃ x rest, positioned (handedBy env fuel op s) = (x, r) :: rest := by
  obtain ⟨hstep, -, -, l', hl', hmem⟩ := perform_inserts h.listed op hrange hsafe hf hrun
  have hlast := h.last_eq
  have hcur := h.cur_eq
  have hstarts : ∀ b ∈ vals l', b.rseq = r → b.HasByte r := by
    intro b hb hr
    rcases hmem b hb with hold | ⟨⟨data, p, len⟩, hblock, henq, hnew⟩
    · exact h.starts b hold hr
    · exact h.inserted hopen hblock (hrange.block_lt hblock) henq hnew hr
  generalize handedBy env fuel op s = handed at hstep ⊢
  cases hstep with
  | @block op data p len handed hblock hstep =>
    cases hstep with
    | nothing hlast' hcur' =>
      exact .inl ⟨rfl, l', hl', hlast'.trans hlast, hcur'.trans hcur, hstarts⟩
    | @data d hdata hfast hlen hlast' hcur' =>
      subst hdata
      have hd := Op.block_length hblock
      have hp : p = r := hfast.1.trans hcur
      exact .inr (head_positioned hp ⟨d, rfl, hp.le, show r < p + d.length by omega⟩)
    | gap hdata hfast hlen =>
      subst hdata
      have := hopen.gap hblock
      have := hfast.1
      omega
    | @reassembled w _ henq hw hwlast harrives hdel =>
      right
      have hwr : w.rseq = r := hwlast.trans hlast
      have hbyte : w.HasByte r := h.inserted hopen hblock (hrange.block_lt hblock) henq hw hwr
      have hord : Ordered (insertBlock (vals l) (max p s.trimRseq) (upper s p len)
          (clip s data p)) := by
        exact insertBlock_ordered h.listed.ordered henq.lt_upper
          ((Op.safeBlock hsafe hblock).upper_lt (hrange.block_lt hblock) henq)
      have hdata : w.data ≠ none := by
        obtain ⟨d, hd, -⟩ := hbyte
        simp [hd]
      obtain ⟨rest, hrest⟩ : ∃ rest, (inOrder r s.curRseq _).1 = w :: rest :=
        inOrder_head hord hw hwr hdata
      rw [hdel.handed_eq, hlast, hrest]
      exact head_positioned hwr hbyte
  | skip => exact hopen.elim
  | trim hseq hlast' hcur' =>
    exact .inl ⟨rfl, l', hl', hlast'.trans hlast, hcur'.trans hcur, hstarts⟩
  | closed hop =>
    exfalso
    cases op with
    | write data seq => exact absurd hop (not_lt.mpr hopen)
    | append data => exact hop
    | gap seq n => exact absurd hop (not_lt.mpr hopen.1)
    | skip seq => exact hopen
    | trim seq => exact absurd hop (not_lt.mpr hopen)
    | close => exact hopen

theorem Waits.run {start : SpicySink} {r : ℕ} (ops : List Op) :
    ∀ (s : SpicySink) (l : List (ℕ × Block)), Waits s l r →
      (machine env start).Along (fun s op => (InRange s op ∧ Safe s op) ∧ LeavesOpen r s op) s ops →
      (machine env start).run s ops = some s' →
      ∀ y ∈ (positioned (handedAlong env s ops)).head?, y.2 = r := by
  induction ops with
  | nil => simp [handedAlong, positioned]
  | cons op ops ih =>
    intro s l h halong hrun
    obtain ⟨⟨⟨hrange, hsafe⟩, hopen⟩, hnext⟩ := halong
    obtain ⟨s₁, hperform, hrun⟩ := Option.bind_eq_some_iff.mp hrun
    have hlen := h.listed.represents.length_le
    rw [handedAlong_cons ops hperform, positioned_append]
    rcases h.step hrange hsafe hopen (show _ ≤ opFuel s by unfold opFuel; omega) hperform with
      ⟨hnone, l₁, h₁⟩ | ⟨x, rest, hfirst⟩
    · rw [hnone]
      exact ih s₁ l₁ h₁ (hnext s₁ hperform) hrun
    · intro y hy
      rw [hfirst] at hy
      cases hy
      rfl

end

/-! ## Skipping -/

/-- What a skip to `r` promises: the bytes that are buffered contiguously from `r` on are
handed over, and if there are none, the sink is at `r` and the first byte that it hands over
later is the one at `r`. -/
def SkipDelivers (env : Env) (l : List Block) (r : ℕ) (s' : SpicySink) (handed : List Block) :
    Prop :=
  (∃ d, Contiguous l r d ∧ positioned handed = d.zipIdx r) ∧
    (positioned handed = [] → s'.curRseq = r ∧ ∀ ops t,
      (machine env s').Along (fun s op => (InRange s op ∧ Safe s op) ∧ LeavesOpen r s op) s' ops →
      (machine env s').run s' ops = some t →
      ∀ y ∈ (positioned (handedAlong env s' ops)).head?, y.2 = r)

section

variable {s : SpicySink}

theorem Listed.buffers {l : List (ℕ × Block)} (h : Listed s l) (hconn : Connected s.head) :
    Buffers s l :=
  ⟨h.represents, h.ordered, h.reaches, h.autoTrim_eq, hconn⟩

theorem inOrder_dropWhile {l : List (ℕ × Block)} (hl : Ordered (vals l)) (r cur : ℕ) :
    inOrder r cur (vals (l.dropWhile (endsBy r))) = inOrder r cur (vals l) := by
  have hsplit : vals l = vals (l.takeWhile (endsBy r)) ++ vals (l.dropWhile (endsBy r)) := by
    rw [vals, ← List.map_append, List.takeWhile_append_dropWhile]
  rw [hsplit]
  refine (inOrder_append cur _ fun b hb => ?_).symm
  obtain ⟨e, he, rfl⟩ := List.mem_map.mp hb
  have hend := List.mem_takeWhile_imp he
  have hok := (hl.ok e.2 (by rw [hsplit]; simp [hb])).1
  simp only [endsBy, decide_eq_true_eq] at hend
  omega

end

end Hilti.Sink
