import Hilti.Lib.Assoc
import Hilti.Lib.Probing

/-!
# Hash tables

The model of `libhilti/3rdparty/khash/khash.h` as `libhilti/map_set.c` uses it, with numbers of 64
bits.  The arrays are functions of the index; memory that has not been written has any value.  A
function without a result is one that does not come back from a loop, reads behind the list of
primes, or fails the assertion on the number of buckets.

Numbers of buckets have at most 32 bits, so nothing overflows.  `__ac_HASH_UPPER` is multiplied in
floating point; for the numbers in the list of primes the product comes out rounded as the exact
one.  The functions without a map are the ones with it, for values of a type with one element.
-/

namespace Hilti.Maps

set_option autoImplicit false

/-- The two bits for a bucket in `flags`. -/
inductive Flag where
  | full | deleted | empty
  deriving DecidableEq

/-- The part of `kh_map_t` and `kh_set_t` that is khash's. -/
structure KhTable (κ ν : Type) where
  nBuckets : ℕ
  size : ℕ
  nOccupied : ℕ
  upperBound : ℕ
  flags : ℕ → Flag
  keys : ℕ → κ
  vals : ℕ → ν

/-- `__ac_prime_list`. -/
def acPrimeList : List ℕ :=
  [0, 3, 11, 23, 53, 97, 193, 389, 769, 1543, 3079, 6151, 12289, 24593, 49157, 98317, 196613, 393241,
    786433, 1572869, 3145739, 6291469, 12582917, 25165843, 50331653, 100663319, 201326611, 402653189,
    805306457, 1610612741, 3221225473, 4294967291]

/-- The last index at most `t` whose prime is not above `n`. -/
def primeIndex (n : ℕ) : ℕ → ℕ
  | 0 => 0
  | t + 1 => if acPrimeList.getD (t + 1) 0 > n then primeIndex n t else t + 1

/-- `n * __ac_HASH_UPPER + 0.5`. -/
def hashUpper (n : ℕ) : ℕ :=
  (77 * n + 50) / 100

/-- The bucket looked at after `i`. -/
def khNext (n inc i : ℕ) : ℕ :=
  if i + inc ≥ n then i + inc - n else i + inc

section

variable {κ ν : Type} (hash : κ → UInt64) (equal : κ → κ → Bool)

/-- A new object has all its fields zero; `keys` and `vals` are not there yet. -/
def khInit (keys : ℕ → κ) (vals : ℕ → ν) : KhTable κ ν :=
  ⟨0, 0, 0, 0, fun _ => .empty, keys, vals⟩

/-- `kh_clear`. -/
def khClear (h : KhTable κ ν) : KhTable κ ν :=
  if h.nBuckets = 0 then h else { h with flags := fun _ => .empty, size := 0, nOccupied := 0 }

/-- The bucket of a hash value, and the width of the steps from there. -/
def khStart (n : ℕ) (key : κ) : ℕ :=
  (hash key).toNat % n

def khInc (n : ℕ) (key : κ) : ℕ :=
  1 + (hash key).toNat % (n - 1)

/-- The condition of the loops in `kh_get` and `kh_put`. -/
def KhTable.passes (h : KhTable κ ν) (key : κ) (i : ℕ) : Bool :=
  h.flags i != .empty && (h.flags i == .deleted || !equal (h.keys i) key)

/-- The loop of `kh_get`. -/
def khGetLoop (h : KhTable κ ν) (key : κ) (inc last : ℕ) : ℕ → ℕ → Option ℕ
  | 0, _ => none
  | fuel + 1, i =>
    if h.passes equal key i then
      if khNext h.nBuckets inc i = last then some h.nBuckets
      else khGetLoop h key inc last fuel (khNext h.nBuckets inc i)
    else some (if h.flags i ≠ .full then h.nBuckets else i)

/-- `kh_get`. -/
def khGet (h : KhTable κ ν) (key : κ) : Option ℕ :=
  if h.nBuckets = 0 then some 0
  else
    khGetLoop equal h key (khInc hash h.nBuckets key) (khStart hash h.nBuckets key) h.nBuckets
      (khStart hash h.nBuckets key)

/-! ## Resizing -/

/-- What the loops of `kh_resize` work on.  `flags` has the buckets that have not been moved yet. -/
structure Rehash (κ ν : Type) where
  flags : ℕ → Flag
  newFlags : ℕ → Flag
  keys : ℕ → κ
  vals : ℕ → ν

/-- The search for a bucket that is empty. -/
def probeEmpty (newFlags : ℕ → Flag) (n inc : ℕ) : ℕ → ℕ → Option ℕ
  | 0, _ => none
  | fuel + 1, i =>
    if newFlags i ≠ .empty then probeEmpty newFlags n inc fuel (khNext n inc i) else some i

/-- The `while ( 1 )` of `kh_resize`.  Where the new bucket of an entry has one that has not been
moved yet, the two change places, and the other one is moved next. -/
def kickOut (nOld n : ℕ) : ℕ → κ → ν → Rehash κ ν → Option (Rehash κ ν)
  | 0, _, _, _ => none
  | fuel + 1, key, val, r =>
    (probeEmpty r.newFlags n (khInc hash n key) n (khStart hash n key)).bind fun i =>
      if i < nOld ∧ r.flags i = .full then
        kickOut nOld n fuel (r.keys i) (r.vals i)
          ⟨Function.update r.flags i .deleted, Function.update r.newFlags i .full,
            Function.update r.keys i key, Function.update r.vals i val⟩
      else
        some ⟨r.flags, Function.update r.newFlags i .full, Function.update r.keys i key,
          Function.update r.vals i val⟩

/-- The body of the loop over the old buckets. -/
def rehashBucket (nOld n : ℕ) (r : Rehash κ ν) (j : ℕ) : Option (Rehash κ ν) :=
  if r.flags j = .full then
    kickOut hash nOld n (nOld + 1) (r.keys j) (r.vals j)
      { r with flags := Function.update r.flags j .deleted }
  else some r

/-- `kh_resize`. -/
def khResize (h : KhTable κ ν) (newNBuckets : ℕ) : Option (KhTable κ ν) :=
  (acPrimeList[primeIndex newNBuckets 31 + 1]?).bind fun n =>
    if h.size ≥ hashUpper n then some h
    else
      ((List.range h.nBuckets).foldlM (rehashBucket hash h.nBuckets n)
        ⟨h.flags, fun _ => .empty, h.keys, h.vals⟩).map fun r =>
          ⟨n, h.size, h.size, hashUpper n, r.newFlags, r.keys, r.vals⟩

/-! ## Inserting and deleting -/

/-- The loop of `kh_put`: `x`, `i` and `site` at its end. -/
def khPutLoop (h : KhTable κ ν) (key : κ) (inc last : ℕ) : ℕ → ℕ → ℕ → Option (ℕ × ℕ × ℕ)
  | 0, _, _ => none
  | fuel + 1, i, site =>
    if h.passes equal key i then
      let site' := if h.flags i = .deleted then i else site
      if khNext h.nBuckets inc i = last then some (site', khNext h.nBuckets inc i, site')
      else khPutLoop h key inc last fuel (khNext h.nBuckets inc i) site'
    else some (h.nBuckets, i, site)

/-- The bucket `kh_put` chooses. -/
def khPutBucket (h : KhTable κ ν) (key : κ) : Option ℕ :=
  if h.flags (khStart hash h.nBuckets key) = .empty then some (khStart hash h.nBuckets key)
  else
    (khPutLoop equal h key (khInc hash h.nBuckets key) (khStart hash h.nBuckets key) h.nBuckets
      (khStart hash h.nBuckets key) h.nBuckets).map fun r =>
        if r.1 = h.nBuckets then
          if h.flags r.2.1 = .empty ∧ r.2.2 ≠ h.nBuckets then r.2.2 else r.2.1
        else r.1

/-- What `kh_put` makes of the bucket, with `*ret`. -/
def khPutAt (h : KhTable κ ν) (key : κ) (x : ℕ) : KhTable κ ν × ℕ :=
  match h.flags x with
  | .empty =>
    ({ h with
        keys := Function.update h.keys x key
        flags := Function.update h.flags x .full
        size := h.size + 1
        nOccupied := h.nOccupied + 1 }, 1)
  | .deleted =>
    ({ h with
        keys := Function.update h.keys x key
        flags := Function.update h.flags x .full
        size := h.size + 1 }, 2)
  | .full => (h, 0)

/-- The resizing in front of an insertion. -/
def khMakeRoom (h : KhTable κ ν) : Option (KhTable κ ν) :=
  if h.nOccupied ≥ h.upperBound then
    if h.nBuckets > h.size * 2 then khResize hash h (h.nBuckets - 1)
    else khResize hash h (h.nBuckets + 1)
  else some h

/-- What `kh_put` returns. -/
structure KhPut (κ ν : Type) where
  table : KhTable κ ν
  x : ℕ
  ret : ℕ

/-- `kh_put`. -/
def khPut (h : KhTable κ ν) (key : κ) : Option (KhPut κ ν) :=
  (khMakeRoom hash h).bind fun h =>
    if h.nBuckets = 0 then none
    else
      (khPutBucket hash equal h key).map fun x =>
        ⟨(khPutAt h key x).1, x, (khPutAt h key x).2⟩

/-- `kh_del`. -/
def khDel (h : KhTable κ ν) (x : ℕ) : KhTable κ ν :=
  if x ≠ h.nBuckets ∧ h.flags x = .full then
    { h with flags := Function.update h.flags x .deleted, size := h.size - 1 }
  else h

/-- `kh_exist`. -/
def khExist (h : KhTable κ ν) (x : ℕ) : Bool :=
  h.flags x == .full

end

/-! ## The list of primes -/

/-- The product of the `2 ^ k` odd numbers from `a` on. -/
def oddProduct : ℕ → ℕ → ℕ
  | 0, a => a
  | k + 1, a => oddProduct k a * oddProduct k (a + 2 ^ (k + 1))

theorem dvd_oddProduct (k a : ℕ) {i : ℕ} (hi : i < 2 ^ k) : a + 2 * i ∣ oddProduct k a := by
  induction k generalizing a i with
  | zero =>
    have hzero : i = 0 := by omega
    rw [hzero]
    exact dvd_rfl
  | succ k ih =>
    have hpow : 2 ^ (k + 1) = 2 * 2 ^ k := by rw [pow_succ, mul_comm]
    unfold oddProduct
    by_cases hlow : i < 2 ^ k
    · exact (ih a hlow).mul_right _
    · have hsub : a + 2 * i = a + 2 ^ (k + 1) + 2 * (i - 2 ^ k) := by omega
      rw [hsub]
      exact (ih _ (by omega)).mul_left _

theorem prime_of_gcd {n : ℕ} (htwo : 2 ≤ n) (hodd : n % 2 = 1)
    (h : Nat.gcd n (oddProduct (n.log2 / 2) 3) = 1) : n.Prime := by
  by_contra hnot
  have hprime := Nat.minFac_prime (show n ≠ 1 by omega)
  have hsq := Nat.minFac_sq_le_self (show 0 < n by omega) hnot
  have hfac : n.minFac % 2 = 1 := by
    by_contra heven
    have hdvd : 2 ∣ n := (Nat.dvd_of_mod_eq_zero (by omega)).trans (Nat.minFac_dvd n)
    omega
  have hge := hprime.two_le
  have hlt : n.minFac < 2 ^ (n.log2 / 2 + 1) := by
    apply lt_of_pow_lt_pow_left₀ 2 (Nat.zero_le _)
    calc n.minFac ^ 2 ≤ n := hsq
      _ < 2 ^ (n.log2 + 1) := Nat.lt_log2_self
      _ ≤ 2 ^ ((n.log2 / 2 + 1) * 2) := Nat.pow_le_pow_right (by decide) (by omega)
      _ = (2 ^ (n.log2 / 2 + 1)) ^ 2 := pow_mul _ _ _
  have hpow : 2 ^ (n.log2 / 2 + 1) = 2 * 2 ^ (n.log2 / 2) := by rw [pow_succ, mul_comm]
  have hdvd := dvd_oddProduct (n.log2 / 2) 3 (show (n.minFac - 3) / 2 < 2 ^ (n.log2 / 2) by omega)
  rw [show 3 + 2 * ((n.minFac - 3) / 2) = n.minFac by omega] at hdvd
  have hone := Nat.dvd_gcd (Nat.minFac_dvd n) hdvd
  rw [h] at hone
  exact hprime.one_lt.ne' (Nat.dvd_one.mp hone)

theorem acPrimeList_gcd : ∀ n ∈ acPrimeList,
    n = 0 ∨ n = 3 ∨ Nat.gcd n (oddProduct (n.log2 / 2) 3) = 1 := by
  decide +kernel

theorem acPrimeList_prime {n : ℕ} (h : n ∈ acPrimeList) (hn : n ≠ 0) :
    n.Prime ∧ 3 ≤ n ∧ hashUpper n < n := by
  have hsmall : ∀ m ∈ acPrimeList, m = 0 ∨ m % 2 = 1 ∧ 3 ≤ m ∧ hashUpper m < m := by decide
  obtain ⟨hodd, hthree, hupper⟩ := (hsmall n h).resolve_left hn
  refine ⟨?_, hthree, hupper⟩
  cases (acPrimeList_gcd n h).resolve_left hn with
  | inl heq => exact heq ▸ Nat.prime_three
  | inr hgcd => exact prime_of_gcd (by omega) hodd hgcd

theorem acPrimeList_grow : ∀ n ∈ acPrimeList, n ≠ 4294967291 →
    ∃ m ∈ acPrimeList, acPrimeList[primeIndex (n + 1) 31 + 1]? = some m ∧ m ≠ 0 ∧
      hashUpper n < hashUpper m := by
  decide

theorem primeIndex_le (n t : ℕ) : primeIndex n t ≤ t := by
  induction t with
  | zero => exact le_rfl
  | succ t ih =>
    unfold primeIndex
    split
    · exact ih.trans (Nat.le_succ t)
    · exact le_rfl

theorem exists_next (newNBuckets : ℕ) (h : newNBuckets < 4294967291) :
    ∃ n, acPrimeList[primeIndex newNBuckets 31 + 1]? = some n ∧ n ≠ 0 := by
  have hlast : primeIndex newNBuckets 31 = primeIndex newNBuckets 30 :=
    if_pos (show acPrimeList.getD 31 0 > newNBuckets from h)
  have hle := primeIndex_le newNBuckets 30
  have hall : ∀ t ≤ 30, ∃ n ∈ acPrimeList, acPrimeList[t + 1]? = some n ∧ n ≠ 0 := by decide
  obtain ⟨n, -, hn⟩ := hall _ hle
  exact ⟨n, hlast ▸ hn⟩

theorem acPrimeList_same : ∀ n ∈ acPrimeList, n ≠ 0 →
    acPrimeList[primeIndex (n - 1) 31 + 1]? = some n := by
  decide

end Hilti.Maps
