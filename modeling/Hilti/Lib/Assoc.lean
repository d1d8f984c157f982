import Mathlib

/-!
# Association lists

Lists of keys and values with a comparison of keys that need not be equality.  No two entries have
equal keys, and the order of the entries does not matter to what is found, inserted and erased.
-/

namespace Hilti.Lib.Assoc

set_option autoImplicit false

variable {κ ν : Type} (equal : κ → κ → Bool)

/-- What a comparison of keys has to be. -/
structure Equality : Prop where
  refl : ∀ a, equal a a = true
  symm : ∀ a b, equal a b = true → equal b a = true
  trans : ∀ a b c, equal a b = true → equal b c = true → equal a c = true

def find (l : List (κ × ν)) (key : κ) : Option (κ × ν) :=
  l.find? fun e => equal e.1 key

/-- A key that is there stays as it is. -/
def insert (l : List (κ × ν)) (key : κ) (value : ν) : List (κ × ν) :=
  if (find equal l key).isSome then
    l.map fun e => if equal e.1 key then (e.1, value) else e
  else (key, value) :: l

def erase (l : List (κ × ν)) (key : κ) : List (κ × ν) :=
  l.filter fun e => !equal e.1 key

def Distinct (l : List (κ × ν)) : Prop :=
  l.Pairwise fun a b => equal a.1 b.1 = false

variable {equal}

section

variable {l l' : List (κ × ν)} {e : κ × ν} {key : κ} {value : ν}

theorem Equality.comm (heq : Equality equal) (a b : κ) : equal a b = equal b a :=
  Bool.eq_iff_iff.mpr ⟨heq.symm a b, heq.symm b a⟩

theorem Equality.congr_right (heq : Equality equal) {a b : κ} (h : equal a b = true) (c : κ) :
    equal c a = equal c b :=
  Bool.eq_iff_iff.mpr ⟨fun hc => heq.trans c a b hc h, fun hc => heq.trans c b a hc (heq.symm a b h)⟩

theorem Distinct.perm (heq : Equality equal) (h : Distinct equal l) (hp : l.Perm l') :
    Distinct equal l' := by
  refine (hp.pairwise_iff fun {a b} hab => ?_).mp h
  rw [heq.comm b.1 a.1]
  exact hab

theorem distinct_cons :
    Distinct equal (e :: l) ↔ (∀ a ∈ l, equal e.1 a.1 = false) ∧ Distinct equal l :=
  List.pairwise_cons

theorem find_eq_none : find equal l key = none ↔ ∀ e ∈ l, equal e.1 key = false := by
  simp only [find, List.find?_eq_none, Bool.not_eq_true]

theorem find_mem (h : find equal l key = some e) : e ∈ l ∧ equal e.1 key = true :=
  ⟨List.mem_of_find?_eq_some h, by simpa using List.find?_some h⟩

theorem find_of_mem (heq : Equality equal) (hd : Distinct equal l) (he : e ∈ l)
    (hkey : equal e.1 key = true) : find equal l key = some e := by
  induction l with
  | nil => cases he
  | cons a l ih =>
    obtain ⟨hall, hd⟩ := distinct_cons.mp hd
    unfold find
    rw [List.find?_cons]
    cases List.mem_cons.mp he with
    | inl hea =>
      subst hea
      rw [hkey]
    | inr hel =>
      have hne : equal a.1 key = false := by
        rw [← heq.congr_right hkey]
        exact hall e hel
      rw [hne]
      exact ih hd hel

theorem find_perm (heq : Equality equal) (hd : Distinct equal l) (hp : l.Perm l') (key : κ) :
    find equal l key = find equal l' key := by
  cases hfind : find equal l key with
  | none =>
    have hnone := find_eq_none.mp hfind
    exact (find_eq_none.mpr fun e he => hnone e (hp.mem_iff.mpr he)).symm
  | some e =>
    obtain ⟨he, hkey⟩ := find_mem hfind
    exact (find_of_mem heq (hd.perm heq hp) (hp.mem_iff.mp he) hkey).symm

theorem erase_perm (equal : κ → κ → Bool) (hp : l.Perm l') (key : κ) : (erase equal l key).Perm (erase equal l' key) :=
  hp.filter _

theorem insert_perm (heq : Equality equal) (hd : Distinct equal l) (hp : l.Perm l') (key : κ)
    (value : ν) : (insert equal l key value).Perm (insert equal l' key value) := by
  unfold insert
  rw [find_perm heq hd hp key]
  split
  · exact hp.map _
  · exact hp.cons _

/-! ## An entry in front -/

theorem erase_of_none (h : find equal l key = none) : erase equal l key = l := by
  apply List.filter_eq_self.mpr
  intro e he
  rw [find_eq_none.mp h e he]
  rfl

theorem insert_of_none (h : find equal l key = none) :
    insert equal l key value = (key, value) :: l := by
  rw [insert, h, if_neg (by simp)]

theorem Distinct.find_tail (heq : Equality equal) (hd : Distinct equal (e :: l))
    (hkey : equal e.1 key = true) : find equal l key = none := by
  apply find_eq_none.mpr
  intro a ha
  rw [heq.comm, ← Bool.not_eq_true]
  intro hcon
  have hea := heq.trans e.1 key a.1 hkey hcon
  rw [(distinct_cons.mp hd).1 a ha] at hea
  cases hea

theorem erase_cons (heq : Equality equal) (hd : Distinct equal (e :: l))
    (hkey : equal e.1 key = true) : erase equal (e :: l) key = l := by
  have htail := erase_of_none (hd.find_tail heq hkey)
  rw [erase, List.filter_cons, hkey]
  exact htail

theorem insert_cons (heq : Equality equal) (hd : Distinct equal (e :: l))
    (hkey : equal e.1 key = true) :
    insert equal (e :: l) key value = (e.1, value) :: l := by
  have hfind : find equal (e :: l) key = some e := find_of_mem heq hd List.mem_cons_self hkey
  have htail := find_eq_none.mp (hd.find_tail heq hkey)
  rw [insert, hfind, if_pos (by simp), List.map_cons, hkey, if_pos rfl]
  have hsame : l.map (fun e => if equal e.1 key then (e.1, value) else e) = l.map id := by
    apply List.map_congr_left
    intro a ha
    rw [htail a ha]
    rfl
  rw [hsame, List.map_id]

end

/-! ## Entries in places -/

section

variable {α : Type}

theorem filterMap_split (f : ℕ → Option α) {n x : ℕ} (hx : x < n) :
    ((List.range n).filterMap f).Perm
      ((f x).toList ++ (List.range n).filterMap (Function.update f x none)) := by
  induction n with
  | zero => omega
  | succ n ih =>
    rw [List.range_succ, List.filterMap_append, List.filterMap_append]
    by_cases heq : x = n
    · subst heq
      have hsame : (List.range x).filterMap (Function.update f x none) = (List.range x).filterMap f :=
        List.filterMap_congr fun i hi =>
          Function.update_of_ne (List.mem_range.mp hi).ne _ _
      have hone : [x].filterMap f = (f x).toList := by
        cases hfx : f x <;> simp [hfx]
      have hnone : [x].filterMap (Function.update f x none) = [] := by simp
      rw [hsame, hone, hnone, List.append_nil]
      exact List.perm_append_comm
    · have hlast : [n].filterMap (Function.update f x none) = [n].filterMap f :=
        List.filterMap_congr fun i hi => by
          rw [List.mem_singleton.mp hi, Function.update_of_ne (Ne.symm heq)]
      rw [hlast, ← List.append_assoc]
      exact (ih (by omega)).append_right _

theorem filterMap_range_add (f : ℕ → Option α) {n : ℕ} (hnone : ∀ i ≥ n, f i = none) (k : ℕ) :
    (List.range (n + k)).filterMap f = (List.range n).filterMap f := by
  induction k with
  | zero => rfl
  | succ k ih =>
    rw [← Nat.add_assoc, List.range_succ, List.filterMap_append, ih]
    simp [hnone (n + k) (by omega)]

theorem exists_eq_none (f : ℕ → Option α) {n : ℕ} (h : ((List.range n).filterMap f).length < n) :
    ∃ i < n, f i = none := by
  by_contra hcon
  have hsome : ∀ i ∈ List.range n, (f i).isSome = true := by
    intro i hi
    rw [Option.isSome_iff_ne_none]
    exact fun hnone => hcon ⟨i, List.mem_range.mp hi, hnone⟩
  have hlength : ((List.range n).filterMap f).length = n := by
    rw [List.filterMap_length_eq_length.mpr hsome, List.length_range]
  omega

end

end Hilti.Lib.Assoc
