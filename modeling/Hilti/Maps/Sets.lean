import Hilti.Maps.Model

/-!
# Sets

The functions for sets of `libhilti/map_set.c`.  A set does what a map does whose values tell
nothing, so what it contains follows from the calls made.
-/

namespace Hilti.Maps

open Hilti.Lib

set_option autoImplicit false

section

variable {κ : Type} (hash : κ → UInt64) (equal : κ → κ → Bool)

/-- `__hlt_set`. -/
abbrev HltSet (κ : Type) := KhTable κ Unit

/-- `hlt_set_new`. -/
def hltSetNew (keys : ℕ → κ) : HltSet κ :=
  khInit keys fun _ => ()

/-- `hlt_set_insert`. -/
def hltSetInsert (s : HltSet κ) (key : κ) : Option (HltSet κ) :=
  (khPut hash equal s key).map KhPut.table

/-- `hlt_set_exists`. -/
def hltSetExists (s : HltSet κ) (key : κ) : Option Bool :=
  (khGet hash equal s key).map fun i => if i = s.nBuckets then false else true

/-- `hlt_set_remove`. -/
def hltSetRemove (s : HltSet κ) (key : κ) : Option (HltSet κ) :=
  (khGet hash equal s key).map fun i => if i ≠ s.nBuckets then khDel s i else s

/-- `hlt_set_size`. -/
def hltSetSize (s : HltSet κ) : ℕ :=
  s.size

/-- `hlt_set_clear`. -/
def hltSetClear (s : HltSet κ) : HltSet κ :=
  khClear s

/-- The calls that change a set. -/
inductive SetOp (κ : Type) where
  | insert (key : κ)
  | remove (key : κ)
  | clear

def HltSet.perform (s : HltSet κ) : SetOp κ → Option (HltSet κ)
  | .insert key => hltSetInsert hash equal s key
  | .remove key => hltSetRemove hash equal s key
  | .clear => some (hltSetClear s)

/-- What a call makes of whether a key is in the set. -/
def SetOp.makes (key : κ) (member : Bool) : SetOp κ → Bool
  | .insert k => member || equal k key
  | .remove k => member && !equal k key
  | .clear => false

end

variable {κ : Type} {hash : κ → UInt64} {equal : κ → κ → Bool}

def HltSet.map (s : HltSet κ) : HltMap κ Unit :=
  ⟨s, .none⟩

def SetOp.map : SetOp κ → MapOp κ Unit
  | .insert key => .insert key ()
  | .remove key => .remove key
  | .clear => .clear

theorem HltSet.perform_map (hash : κ → UInt64) (equal : κ → κ → Bool) (s : HltSet κ)
    (op : SetOp κ) :
    (s.map.perform hash equal op.map).map (fun r => r.1.table) = HltSet.perform hash equal s op := by
  cases op with
  | insert key =>
    change ((hltMapInsert hash equal s.map key ()).map _).map _ = hltSetInsert hash equal s key
    rw [hltMapInsert, hltSetInsert, Option.map_map, Option.map_map]
    rfl
  | remove key =>
    change ((hltMapRemove hash equal s.map key).map _).map _ = hltSetRemove hash equal s key
    rw [hltMapRemove, hltSetRemove, Option.map_map, Option.map_map]
    congr 1
    funext i
    by_cases hi : i ≠ s.nBuckets
    · rw [if_pos hi]
      exact congrArg HltMap.table (if_pos hi)
    · rw [if_neg hi]
      exact congrArg HltMap.table (if_neg hi)
  | clear => rfl

theorem find_isSome {l : List (κ × Unit)} {key : κ} :
    (Assoc.find equal l key).isSome = l.any fun e => equal e.1 key :=
  List.isSome_find?

theorem find_perform (hc : Coherent hash equal) (a : FiniteMap κ Unit) (op : SetOp κ) (key : κ) :
    (Assoc.find equal (a.perform equal op.map).1.entries key).isSome =
      op.makes equal key (Assoc.find equal a.entries key).isSome := by
  cases op with
  | insert k =>
    change (Assoc.find equal (Assoc.insert equal a.entries k ()) key).isSome =
      ((Assoc.find equal a.entries key).isSome || equal k key)
    cases hfind : Assoc.find equal a.entries k with
    | none =>
      rw [Assoc.insert_of_none hfind, find_isSome, find_isSome, List.any_cons, Bool.or_comm]
    | some e =>
      obtain ⟨hmem, hkey⟩ := Assoc.find_mem hfind
      rw [Assoc.insert, hfind, Option.isSome_some, if_pos rfl, find_isSome, find_isSome,
        List.any_map]
      have hsame : ((fun e : κ × Unit => equal e.1 key) ∘
          fun e => if equal e.1 k = true then (e.1, ()) else e) = fun e => equal e.1 key := by
        funext e
        change equal (if equal e.1 k = true then (e.1, ()) else e).1 key = equal e.1 key
        split <;> rfl
      rw [hsame]
      cases hk : equal k key with
      | false => rw [Bool.or_false]
      | true =>
        rw [Bool.or_true, List.any_eq_true]
        exact ⟨e, hmem, hc.trans _ _ _ hkey hk⟩
  | remove k =>
    change (Assoc.find equal (Assoc.erase equal a.entries k) key).isSome =
      ((Assoc.find equal a.entries key).isSome && !equal k key)
    rw [find_isSome, find_isSome, Assoc.erase, List.any_filter]
    cases hk : equal k key with
    | false =>
      rw [Bool.not_false, Bool.and_true]
      apply List.any_congr rfl
      intro e
      cases hek : equal e.1 k with
      | false => rfl
      | true =>
        rw [hc.comm e.1 key, ← hc.congr_right (hc.symm _ _ hek), hc.comm key k, hk]
        rfl
    | true =>
      rw [Bool.not_true, Bool.and_false, List.any_eq_false]
      intro e _
      rw [← hc.congr_right hk]
      cases equal e.1 k <;> decide
  | clear => rfl

/-- The run lemma. -/
theorem run_member (hc : Coherent hash equal) (ops : List (SetOp κ)) :
    ∀ (s : HltSet κ) (a : FiniteMap κ Unit), Represents hash equal s.map a →
      (a.entries.length + ops.length) * 2 < 4294967291 →
      ∃ s' a', ops.foldlM (HltSet.perform hash equal) s = some s' ∧
        Represents hash equal s'.map a' ∧
        ∀ key, (Assoc.find equal a'.entries key).isSome =
          ops.foldl (SetOp.makes equal key) (Assoc.find equal a.entries key).isSome := by
  induction ops with
  | nil => exact fun s a h _ => ⟨s, a, rfl, h, fun key => rfl⟩
  | cons op ops ih =>
    intro s a h hroom
    rw [List.length_cons] at hroom
    obtain ⟨m₁, hm₁, h₁, hlength⟩ := perform_refines hc h op.map (by omega)
    have hs₁ := HltSet.perform_map hash equal s op
    rw [hm₁, Option.map_some] at hs₁
    have hset : Represents hash equal (HltSet.map m₁.table)
        ⟨(a.perform equal op.map).1.entries, .none⟩ := ⟨h₁.sound, h₁.entries, rfl⟩
    obtain ⟨s', a', hs', h', hmember⟩ := ih m₁.table _ hset (by dsimp only; omega)
    refine ⟨s', a', ?_, h', fun key => ?_⟩
    · rw [List.foldlM_cons, ← hs₁]
      exact hs'
    · rw [hmember, List.foldl_cons, ← find_perform hc]

/-- After every run of calls on a new set, a key is in it exactly if the last call that has to do
with the key put it there; and the size is the number of its elements, of which no two are equal. -/
theorem set_follows (hc : Coherent hash equal) (keys : ℕ → κ) (ops : List (SetOp κ))
    (hroom : ops.length * 2 < 4294967291) :
    ∃ s, ops.foldlM (HltSet.perform hash equal) (hltSetNew keys) = some s ∧
      (∀ key, hltSetExists hash equal s key = some (ops.foldl (SetOp.makes equal key) false)) ∧
      ∃ elems : List κ, hltSetSize s = elems.length ∧
        elems.Pairwise (fun a b => equal a b = false) ∧
        ∀ key, elems.any (fun k => equal k key) = ops.foldl (SetOp.makes equal key) false := by
  obtain ⟨s, a, hs, h, hmember⟩ := run_member hc ops (hltSetNew keys) ⟨[], .none⟩
    (represents_hltMapNew keys _) (by rw [List.length_nil, Nat.zero_add]; exact hroom)
  have hmember : ∀ key, (Assoc.find equal a.entries key).isSome =
      ops.foldl (SetOp.makes equal key) false := hmember
  refine ⟨s, hs, fun key => ?_, a.entries.map Prod.fst, ?_, ?_, fun key => ?_⟩
  · rw [← hmember key]
    exact hltMapExists_spec hc h key
  · rw [List.length_map]
    exact h.size_eq
  · exact List.pairwise_map.mpr (h.sound.distinct.perm hc.toEquality h.entries)
  · rw [← hmember key, find_isSome, List.any_map]
    rfl

/-- A key is removed and inserted again. -/
theorem set_follows_again : ∃ s,
    [SetOp.insert 1, .insert 4, .remove 1, .insert 1].foldlM
      (HltSet.perform UInt64.ofNat fun a b : ℕ => a == b) (hltSetNew fun _ => 0) = some s ∧
      hltSetExists UInt64.ofNat (fun a b : ℕ => a == b) s 1 = some true := by
  obtain ⟨s, hs, hmember, -⟩ := set_follows coherent_numbers (fun _ => 0)
    [SetOp.insert 1, .insert 4, .remove 1, .insert 1] (by decide)
  exact ⟨s, hs, hmember 1⟩

end Hilti.Maps
