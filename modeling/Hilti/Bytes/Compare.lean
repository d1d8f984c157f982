import Mathlib.Tactic
import Mathlib.Data.List.Lex
import Hilti.Bytes.Search

/-!
# Comparing and hashing bytes

The model of `hlt_bytes_cmp`, `hlt_bytes_equal` and `hlt_bytes_hash`.  The comparison
walks over both objects byte by byte; its result has the opposite sign of the documented
one, and it takes bytes as signed numbers.  The hash is computed chunk by chunk by
`hlt_hash_bytes`, which gets the length of a chunk as an `int16_t`.
-/

namespace Hilti.Bytes

open Hilti.Lib

set_option autoImplicit false

/-! ## The functions -/

/-- The value of a byte as an `int8_t`. -/
def int8 (b : UInt8) : ℤ :=
  if b.toNat < 128 then b.toNat else b.toNat - 256

def cmpLoop (H : Heap) : ℕ → Iter → Iter → Option ℤ
  | 0, _, _ => none
  | fuel + 1, p1, p2 => do
    let e1 ← isEnd H p1
    let e2 ← isEnd H p2
    if e1 then some (if e2 then 0 else 1)
    else if e2 then some (-1)
    else do
      let c1 ← byteAt H p1
      let c2 ← byteAt H p2
      if c1 ≠ c2 then some (if int8 c1 > int8 c2 then -1 else 1)
      else do
        let p1 ← incrOnce H p1
        let p2 ← incrOnce H p2
        cmpLoop H fuel p1 p2

/-- `hlt_bytes_cmp`. -/
def bytesCmp (H : Heap) (fuel : ℕ) (b1 b2 : ℕ) : Option ℤ := do
  let e1 ← isEmpty H b1
  let e2 ← isEmpty H b2
  if e1 then some (if e2 then 0 else 1)
  else if e2 then some (if e1 then 0 else -1)
  else do
    let p1 ← bytesBegin H b1
    let p2 ← bytesBegin H b2
    cmpLoop H fuel p1 p2

/-- `hlt_bytes_equal`. -/
def bytesEqual (H : Heap) (fuel : ℕ) (b1 b2 : ℕ) : Option Bool := do
  let c ← bytesCmp H fuel b1 b2
  some (c = 0)

/-- One byte more in a hash: `(h << 5) - h + c`. -/
def hashStep (h : UInt64) (c : UInt8) : UInt64 :=
  (h <<< 5) - h + UInt64.ofInt (int8 c)

/-- `hlt_hash_bytes`.  The loop counts the `int16_t` down to zero, through the smallest
one if it is negative. -/
def hashBytes (s : List UInt8) (len : BitVec 16) (prev : UInt64) : UInt64 :=
  if len = 0 then 0 else (s.take len.toNat).foldl hashStep prev

def hashLoop (H : Heap) : ℕ → Option ℕ → UInt64 → Option UInt64
  | _, none, h => some h
  | 0, some _, _ => none
  | fuel + 1, some b, h => do
    let c ← H.chunk b
    let n := c.data.length - c.start
    hashLoop H fuel c.next
      (if n ≠ 0 then hashBytes (c.data.drop c.start) (BitVec.ofNat 16 n) h else h)

/-- `hlt_bytes_hash`. -/
def bytesHash (H : Heap) (b : ℕ) : Option UInt64 :=
  hashLoop H H.fresh (some b) 0

/-! ## The comparison -/

/-- What `hlt_bytes_cmp` computes of the contents. -/
def cmpLists : List UInt8 → List UInt8 → ℤ
  | [], [] => 0
  | [], _ :: _ => 1
  | _ :: _, [] => -1
  | a :: l, b :: m => if a ≠ b then (if int8 a > int8 b then -1 else 1) else cmpLists l m

/-- The documented result: the lexicographic order of unsigned bytes. -/
def documentedCmp (l m : List UInt8) : ℤ :=
  if l < m then -1 else if m < l then 1 else 0

/-- Of the first two bytes that differ, exactly one is less than 128. -/
def Mixed : List UInt8 → List UInt8 → Prop
  | a :: l, b :: m => if a = b then Mixed l m else ((a.toNat < 128) ↔ ¬ b.toNat < 128)
  | _, _ => False

section

variable {H : Heap} {x y : Shape}

theorem cmpLoop_spec (hx : Rep H x) (hy : Rep H y) (fuel : ℕ) :
    ∀ {p1 p2 : Iter} {k m a a' p p' : ℕ} {c c' : Chunk} {cs cs' : Chunks},
      Normal H x p1 k a c p cs → Normal H y p2 m a' c' p' cs' → x.written.length - k < fuel →
      cmpLoop H fuel p1 p2 = some (cmpLists (x.written.drop k) (y.written.drop m)) := by
  induction fuel with
  | zero =>
    intro p1 p2 k m a a' p p' c c' cs cs' _ _ hf
    omega
  | succ fuel ih =>
    intro p1 p2 k m a a' p p' c c' cs cs' h1 h2 hf
    rw [cmpLoop, h1.isEnd_eq hx, h2.isEnd_eq hy]
    have hle1 := h1.pos_le
    have hle2 := h2.pos_le
    simp only [Option.bind_eq_bind, Option.bind_some, decide_eq_true_eq]
    by_cases hk : k = x.written.length
    · rw [if_pos hk, List.drop_of_length_le hk.ge]
      by_cases hm : m = y.written.length
      · rw [if_pos hm, List.drop_of_length_le hm.ge]
        rfl
      · rw [if_neg hm, List.drop_eq_getElem_cons (by omega)]
        rfl
    have hk' : k < x.written.length := by omega
    rw [if_neg hk, List.drop_eq_getElem_cons hk']
    by_cases hm : m = y.written.length
    · rw [if_pos hm, List.drop_of_length_le hm.ge]
      rfl
    have hm' : m < y.written.length := by omega
    rw [if_neg hm, List.drop_eq_getElem_cons hm', h1.byteAt_eq hk', h2.byteAt_eq hm']
    simp only [Option.bind_some, cmpLists]
    split
    · rfl
    · obtain ⟨p1', _, _, _, _, hincr1, h1', -⟩ := h1.incrOnce_spec hx hk'
      obtain ⟨p2', _, _, _, _, hincr2, h2', -⟩ := h2.incrOnce_spec hy hm'
      rw [hincr1, hincr2]
      exact ih h1' h2' (by omega)

theorem bytesCmp_spec (hx : Rep H x) (hy : Rep H y) (fuel : ℕ)
    (hf : x.obj.content.length < fuel) :
    bytesCmp H fuel x.first y.first = some (cmpLists x.obj.content y.obj.content) := by
  obtain ⟨p1, a, c, p, cs, hbegin1, h1⟩ := bytesBegin_normal hx
  obtain ⟨p2, a', c', p', cs', hbegin2, h2⟩ := bytesBegin_normal hy
  have he1 : isEmpty H x.first = some (decide (x.obj.content = [])) := hx.isEmpty_eq
  have he2 : isEmpty H y.first = some (decide (y.obj.content = [])) := hy.isEmpty_eq
  have hloop : cmpLoop H fuel p1 p2 = some (cmpLists x.obj.content y.obj.content) :=
    cmpLoop_spec hx hy fuel h1 h2 (by rwa [← List.length_drop])
  simp only [bytesCmp, he1, he2, hbegin1, hbegin2, hloop, Option.bind_eq_bind, Option.bind_some,
    decide_eq_true_eq]
  cases x.obj.content with
  | nil => cases y.obj.content <;> rfl
  | cons b l => cases y.obj.content <;> rfl

end

theorem cmpLists_eq_zero (l m : List UInt8) : cmpLists l m = 0 ↔ l = m := by
  induction l, m using cmpLists.induct with
  | case1 => simp [cmpLists]
  | case2 b m => simp [cmpLists]
  | case3 a l => simp [cmpLists]
  | case4 a l b m hne hgt => simp [cmpLists, hne, hgt]
  | case5 a l b m hne hle => simp [cmpLists, hne, hle]
  | case6 a l b m heq ih =>
    obtain rfl : a = b := not_not.mp heq
    simp [cmpLists, ih]

theorem int8_gt_iff {a b : UInt8} (hne : a ≠ b) :
    (int8 a > int8 b ↔ a < b) ↔ ((a.toNat < 128) ↔ ¬ b.toNat < 128) := by
  have hne' : a.toNat ≠ b.toNat := fun h => hne (UInt8.toNat_inj.mp h)
  have ha := a.toNat_lt
  have hb := b.toNat_lt
  rw [UInt8.lt_iff_toNat_lt]
  unfold int8
  split <;> split <;> constructor <;> intro h <;> omega

theorem documentedCmp_of_ne {a b : UInt8} (hne : a ≠ b) (l m : List UInt8) :
    documentedCmp (a :: l) (b :: m) = if a < b then -1 else 1 := by
  unfold documentedCmp
  simp only [List.cons_lt_cons_iff, hne, hne.symm, false_and, or_false]
  by_cases hlt : a < b
  · simp [hlt]
  · have hne' : a.toNat ≠ b.toNat := fun h => hne (UInt8.toNat_inj.mp h)
    have hgt : b < a := by
      rw [UInt8.lt_iff_toNat_lt] at hlt ⊢
      omega
    simp [hlt, hgt]

theorem cmpLists_eq_documentedCmp (l m : List UInt8) :
    cmpLists l m = documentedCmp l m ↔ l = m ∨ Mixed l m := by
  induction l, m using cmpLists.induct with
  | case1 => simp [cmpLists, documentedCmp]
  | case2 b m => simp [cmpLists, documentedCmp, Mixed]
  | case3 a l => simp [cmpLists, documentedCmp, Mixed]
  | case4 a l b m hne hgt =>
    rw [documentedCmp_of_ne hne, Mixed, if_neg hne, ← int8_gt_iff hne]
    by_cases hlt : a < b <;> simp [cmpLists, hne, hgt, hlt]
  | case5 a l b m hne hle =>
    rw [documentedCmp_of_ne hne, Mixed, if_neg hne, ← int8_gt_iff hne]
    by_cases hlt : a < b <;> simp [cmpLists, hne, hle, hlt]
  | case6 a l b m heq ih =>
    obtain rfl : a = b := not_not.mp heq
    have hdoc : documentedCmp (a :: l) (a :: m) = documentedCmp l m := by
      simp [documentedCmp]
    simp [cmpLists, Mixed, hdoc, ih]

theorem not_mixed_self (l : List UInt8) : ¬ Mixed l l := by
  induction l with
  | nil => exact id
  | cons a l ih => rwa [Mixed, if_pos rfl]

/-! ## The hash -/

/-- The bytes that a hash takes into account, after those of `acc`: of a chunk the first
bytes of its length modulo `2 ^ 16`, and nothing of what precedes a chunk of which there
are none. -/
def keptAfter : List UInt8 → List (List UInt8) → List UInt8
  | acc, [] => acc
  | acc, part :: parts =>
    if part = [] then keptAfter acc parts
    else if part.length % 2 ^ 16 = 0 then keptAfter [] parts
    else keptAfter (acc ++ part.take (part.length % 2 ^ 16)) parts

def kept (parts : List (List UInt8)) : List UInt8 :=
  keptAfter [] parts

/-- The hash of bytes that are one chunk of less than `2 ^ 16` bytes. -/
def plainHash (l : List UInt8) : UInt64 :=
  l.foldl hashStep 0

theorem keptAfter_of_lt {parts : List (List UInt8)} (h : ∀ part ∈ parts, part.length < 2 ^ 16)
    (acc : List UInt8) : keptAfter acc parts = acc ++ parts.flatten := by
  induction parts generalizing acc with
  | nil => simp [keptAfter]
  | cons part parts ih =>
    have hlt := h part (by simp)
    have hrest := ih fun part' hmem => h part' (by simp [hmem])
    unfold keptAfter
    split
    · rename_i hnil
      rw [hrest, hnil]
      rfl
    · rename_i hne
      have hpos : part.length ≠ 0 := by simpa using hne
      rw [Nat.mod_eq_of_lt hlt, if_neg hpos, List.take_length, hrest]
      simp

theorem kept_of_lt {parts : List (List UInt8)} (h : ∀ part ∈ parts, part.length < 2 ^ 16) :
    kept parts = parts.flatten :=
  keptAfter_of_lt h []

theorem hashLoop_spec (H : Heap) (fuel : ℕ) :
    ∀ (b : Option ℕ) (parts : List (List UInt8)) (acc : List UInt8),
      partsLoop H fuel b = some parts →
      hashLoop H fuel b (plainHash acc) = some (plainHash (keptAfter acc parts)) := by
  induction fuel with
  | zero =>
    intro b parts acc h
    cases b with
    | none =>
      cases h
      rfl
    | some b => cases h
  | succ fuel ih =>
    intro b parts acc h
    cases b with
    | none =>
      cases h
      rfl
    | some b =>
      obtain ⟨c, hc, h⟩ := Option.bind_eq_some_iff.mp h
      obtain ⟨rest, hrest, h⟩ := Option.bind_eq_some_iff.mp h
      cases h
      simp only [hashLoop, hc, Option.bind_eq_bind, Option.bind_some, keptAfter]
      have hlen : (c.data.drop c.start).length = c.data.length - c.start := List.length_drop ..
      have hnil : c.data.drop c.start = [] ↔ c.data.length - c.start = 0 := by
        rw [← hlen, List.length_eq_zero_iff]
      by_cases hzero : c.data.length - c.start = 0
      · rw [if_neg (not_not.mpr hzero), if_pos (hnil.mpr hzero)]
        exact ih _ _ _ hrest
      · rw [if_pos hzero, if_neg (mt hnil.mp hzero), hlen, hashBytes]
        have hmod : (BitVec.ofNat 16 (c.data.length - c.start)).toNat =
            (c.data.length - c.start) % 2 ^ 16 := BitVec.toNat_ofNat ..
        have hiff : BitVec.ofNat 16 (c.data.length - c.start) = 0 ↔
            (c.data.length - c.start) % 2 ^ 16 = 0 := by
          rw [← hmod, ← BitVec.toNat_inj]
          rfl
        by_cases hmult : (c.data.length - c.start) % 2 ^ 16 = 0
        · rw [if_pos (hiff.mpr hmult), if_pos hmult]
          exact ih _ _ [] hrest
        · rw [if_neg (mt hiff.mp hmult), if_neg hmult, hmod]
          have happend : ∀ l, l.foldl hashStep (plainHash acc) = plainHash (acc ++ l) := by
            intro l
            rw [plainHash, plainHash, List.foldl_append]
          rw [happend]
          exact ih _ _ _ hrest

theorem copyLoop_eq (H : Heap) (fuel : ℕ) :
    ∀ b : Option ℕ, copyLoop H fuel b = (partsLoop H fuel b).map List.flatten := by
  induction fuel with
  | zero =>
    intro b
    cases b <;> rfl
  | succ fuel ih =>
    intro b
    cases b with
    | none => rfl
    | some b =>
      cases hc : H.chunk b with
      | none => simp [copyLoop, partsLoop, hc]
      | some c =>
        cases hrest : partsLoop H fuel c.next with
        | none => simp [copyLoop, partsLoop, hc, ih, hrest]
        | some rest => simp [copyLoop, partsLoop, hc, ih, hrest]

theorem Rep.parts_eq {H : Heap} {x : Shape} (h : Rep H x) :
    ∃ parts, partsLoop H H.fresh (some x.first) = some parts ∧ parts.flatten = x.obj.content := by
  have hcopy := h.copy_eq
  rw [copyLoop_eq] at hcopy
  exact Option.map_eq_some_iff.mp hcopy

/-! ## Any two objects of a program -/

/-- What a program may expect of the comparison `c`, the test for equality `eq` and the
hashes of two objects with the contents `l` and `m`. -/
structure Coherent (l m : List UInt8) (c : ℤ) (eq : Bool) (h1 h2 : UInt64) : Prop where
  cmp_eq : c = documentedCmp l m
  zero_iff : c = 0 ↔ eq = true
  equal_iff : eq = true ↔ l = m
  hash_eq : l = m → h1 = h2

/-- The objects `ab` in two chunks, `ab` in one, `a` and `b`. -/
def comparedOps : List Op :=
  [.newFromData [97], .appendRaw 0 [98], .newFromData [97, 98], .newFromData [97],
    .newFromData [98]]

end Hilti.Bytes
