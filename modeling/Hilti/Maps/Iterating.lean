import Hilti.Maps.Model

/-!
# Iterators of maps and sets

An iterator has the index of a bucket, or is at the end.  Deleting an entry moves no other one, so a
loop may remove the entries that it has come to.
-/

namespace Hilti.Maps

open Hilti.Lib

set_option autoImplicit false

section

variable {κ ν : Type}

/-- `hlt_map_begin` and `hlt_set_begin`; the end has no bucket. -/
def hltMapBegin (m : HltMap κ ν) : Option ℕ :=
  (List.range m.table.nBuckets).find? (khExist m.table)

/-- `hlt_iterator_map_incr` and `hlt_iterator_set_incr`.  The last index looked at is the one behind
the buckets; there are flags for it. -/
def hltIteratorMapIncr (m : HltMap κ ν) : Option ℕ → Option ℕ
  | none => none
  | some i => (List.range' (i + 1) (m.table.nBuckets - i)).find? (khExist m.table)

/-- `hlt_iterator_map_deref`. -/
def hltIteratorMapDeref (m : HltMap κ ν) : Option ℕ → Except Excpt (κ × ν)
  | none => .error .invalidIterator
  | some i => .ok (m.table.keys i, m.table.vals i)

/-- A loop over a map that removes some of the entries that it comes to.  The result has what the
iterators are dereferenced to, and the map at the end. -/
def visitLoop (hash : κ → UInt64) (equal : κ → κ → Bool) (drop : κ × ν → Bool) :
    ℕ → HltMap κ ν → Option ℕ → Option (List (Except Excpt (κ × ν)) × HltMap κ ν)
  | 0, _, _ => none
  | _ + 1, m, none => some ([], m)
  | fuel + 1, m, some i =>
    (if drop (m.table.keys i, m.table.vals i) then hltMapRemove hash equal m (m.table.keys i)
      else some m).bind fun m' =>
      (visitLoop hash equal drop fuel m' (hltIteratorMapIncr m' (some i))).map fun r =>
        (hltIteratorMapDeref m (some i) :: r.1, r.2)

/-! ## The buckets from an index on -/

/-- The first full bucket from `p` on. -/
def nextFrom (h : KhTable κ ν) (p : ℕ) : Option ℕ :=
  (List.range' p (h.nBuckets - p)).find? (khExist h)

def entriesFrom (h : KhTable κ ν) (p : ℕ) : List (κ × ν) :=
  (List.range' p (h.nBuckets - p)).filterMap h.cell

variable {hash : κ → UInt64} {equal : κ → κ → Bool} {h : KhTable κ ν} {m : HltMap κ ν}

theorem khExist_iff {i : ℕ} : khExist h i = true ↔ h.flags i = .full := by
  rw [khExist, beq_iff_eq]

theorem hltMapBegin_eq : hltMapBegin m = nextFrom m.table 0 := by
  rw [hltMapBegin, nextFrom, Nat.sub_zero, List.range_eq_range']

theorem hltIteratorMapIncr_eq (hs : Sound hash equal m.table) {i : ℕ} (hi : i < m.table.nBuckets) :
    hltIteratorMapIncr m (some i) = nextFrom m.table (i + 1) := by
  have hend : khExist m.table m.table.nBuckets = false := by
    rw [← Bool.not_eq_true, khExist_iff]
    intro hfull
    exact absurd (hs.lt_of_flag _ (ne_empty_of_full hfull)) (lt_irrefl _)
  have hone : m.table.nBuckets - i = m.table.nBuckets - (i + 1) + 1 := by omega
  have hlast : i + 1 + 1 * (m.table.nBuckets - (i + 1)) = m.table.nBuckets := by omega
  change (List.range' (i + 1) (m.table.nBuckets - i)).find? (khExist m.table) = _
  rw [nextFrom, hone, List.range'_concat, List.find?_append, hlast]
  simp [hend]

theorem entriesFrom_zero : entriesFrom h 0 = h.entries := by
  rw [entriesFrom, KhTable.entries, Nat.sub_zero, List.range_eq_range']

theorem nextFrom_cases (p : ℕ) :
    (nextFrom h p = none ∧ entriesFrom h p = [] ∧ ∀ i ≥ p, i < h.nBuckets → h.cell i = none) ∨
      ∃ i ≥ p, i < h.nBuckets ∧ nextFrom h p = some i ∧ h.flags i = .full ∧
        entriesFrom h p = (h.keys i, h.vals i) :: entriesFrom h (i + 1) ∧
        ∀ k ≥ p, k < i → h.cell k = none := by
  obtain ⟨n, hn⟩ : ∃ n, h.nBuckets - p = n := ⟨_, rfl⟩
  induction n generalizing p with
  | zero =>
    left
    rw [nextFrom, entriesFrom, hn]
    exact ⟨rfl, rfl, fun i hi hlt => by omega⟩
  | succ n ih =>
    have hrest : h.nBuckets - (p + 1) = n := by omega
    have hnext : nextFrom h p = if khExist h p then some p else nextFrom h (p + 1) := by
      rw [nextFrom, nextFrom, hn, hrest, List.range'_succ, List.find?_cons]
      cases khExist h p <;> rfl
    have hentries : entriesFrom h p = (h.cell p).toList ++ entriesFrom h (p + 1) := by
      rw [entriesFrom, entriesFrom, hn, hrest, List.range'_succ, List.filterMap_cons]
      cases h.cell p <;> rfl
    by_cases hfull : h.flags p = .full
    · right
      refine ⟨p, le_rfl, by omega, ?_, hfull, ?_, fun k hk hlt => by omega⟩
      · rw [hnext, if_pos (khExist_iff.mpr hfull)]
      · rw [hentries, cell_eq_some.mpr ⟨hfull, rfl⟩]
        rfl
    · have hnone := cell_eq_none.mpr hfull
      rw [hnext, hentries, hnone, if_neg (fun hcon => hfull (khExist_iff.mp hcon)),
        Option.toList_none, List.nil_append]
      have hbefore : ∀ {q : ℕ} {k : ℕ}, (∀ k ≥ p + 1, k < q → h.cell k = none) → k ≥ p → k < q →
          h.cell k = none := by
        intro q k hall hk hlt
        by_cases heq : k = p
        · exact heq ▸ hnone
        · exact hall k (by omega) hlt
      cases ih (p + 1) hrest with
      | inl hend =>
        obtain ⟨hstop, hnil, hall⟩ := hend
        exact .inl ⟨hstop, hnil, fun i hi hlt => hbefore hall hi hlt⟩
      | inr hmore =>
        obtain ⟨i, hi, hlt, hstop, hfound, hcons, hall⟩ := hmore
        exact .inr ⟨i, by omega, hlt, hstop, hfound, hcons, fun k hk hki => hbefore hall hk hki⟩

/-! ## Loops -/

theorem hltMapRemove_bucket (hc : Coherent hash equal) (hs : Sound hash equal m.table) {i : ℕ}
    (hfull : m.table.flags i = .full) :
    hltMapRemove hash equal m (m.table.keys i) = some { m with table := khDel m.table i } := by
  obtain ⟨j, hj, hcase⟩ := khGet_spec hc hs (m.table.keys i)
  have hfound := Assoc.find_of_mem hc.toEquality hs.distinct (hs.mem_of_full hfull)
    (hc.refl (m.table.keys i))
  rw [hfound] at hcase
  obtain ⟨e, hlt, hcell, he⟩ := hcase.resolve_left fun hcon => nomatch hcon.2
  obtain ⟨hjfull, hje⟩ := cell_eq_some.mp hcell
  have hkeys : m.table.keys j = m.table.keys i :=
    congrArg Prod.fst (hje.trans (Option.some.inj he).symm)
  have hji : j = i := hs.bucket_unique hc hjfull hfull (hkeys ▸ hc.refl _)
  subst hji
  rw [hltMapRemove, hj, Option.map_some, if_pos hlt.ne]

theorem visitLoop_spec (hc : Coherent hash equal) (drop : κ × ν → Bool) :
    ∀ fuel p (m : HltMap κ ν), Sound hash equal m.table → p ≤ m.table.nBuckets →
      m.table.nBuckets - p < fuel →
      ∃ m', visitLoop hash equal drop fuel m (nextFrom m.table p) =
          some ((entriesFrom m.table p).map .ok, m') ∧ Sound hash equal m'.table ∧
        m'.table.entries = (List.range p).filterMap m.table.cell ++
          (entriesFrom m.table p).filter fun e => !drop e := by
  intro fuel
  induction fuel with
  | zero => intro _ _ _ _ hfuel; omega
  | succ fuel ih =>
    intro p m hs hp hfuel
    have hsplit : ∀ (f : ℕ → Option (κ × ν)) {a b : ℕ}, a ≤ b →
        (∀ k ≥ a, k < b → f k = none) → (List.range b).filterMap f = (List.range a).filterMap f := by
      intro f a b hab hnone
      obtain ⟨d, rfl⟩ := Nat.exists_eq_add_of_le hab
      rw [List.range_add, List.filterMap_append]
      have hnil : (List.map (fun x => a + x) (List.range d)).filterMap f = [] := by
        rw [List.filterMap_eq_nil_iff]
        intro k hk
        obtain ⟨x, hx, rfl⟩ := List.mem_map.mp hk
        exact hnone _ (by omega) (by have := List.mem_range.mp hx; omega)
      rw [hnil, List.append_nil]
    cases nextFrom_cases (h := m.table) p with
    | inl hend =>
      obtain ⟨hstop, hnil, hall⟩ := hend
      refine ⟨m, ?_, hs, ?_⟩
      · rw [hstop, hnil]
        rfl
      · rw [hnil, List.filter_nil, List.append_nil]
        exact hsplit m.table.cell hp hall
    | inr hmore =>
      obtain ⟨i, hi, hlt, hstop, hfull, hcons, hall⟩ := hmore
      have hcell : m.table.cell i = some (m.table.keys i, m.table.vals i) :=
        cell_eq_some.mpr ⟨hfull, rfl⟩
      have hfront := hsplit m.table.cell hi hall
      rw [hstop, hcons]
      unfold visitLoop
      by_cases hdrop : drop (m.table.keys i, m.table.vals i) = true
      · rw [if_pos hdrop, hltMapRemove_bucket hc hs hfull, Option.bind_some]
        obtain ⟨hs', -, hn, hcells⟩ := khDel_spec hc hs hcell
        set m₁ : HltMap κ ν := { m with table := khDel m.table i } with hm₁
        have hlt' : i < m₁.table.nBuckets := hn ▸ hlt
        rw [hltIteratorMapIncr_eq hs' hlt']
        obtain ⟨m', hm', hsound, hleft⟩ := ih (i + 1) m₁ hs' hlt'
          (by rw [show m₁.table.nBuckets = m.table.nBuckets from hn]; omega)
        have hrest : entriesFrom m₁.table (i + 1) = entriesFrom m.table (i + 1) := by
          rw [entriesFrom, entriesFrom, show m₁.table.nBuckets = m.table.nBuckets from hn]
          apply List.filterMap_congr
          intro k hk
          rw [hcells k, if_neg]
          have := List.mem_range'_1.mp hk
          omega
        have hbefore : (List.range (i + 1)).filterMap m₁.table.cell =
            (List.range p).filterMap m.table.cell := by
          rw [List.range_succ, List.filterMap_append, ← hfront]
          have hgone : [i].filterMap m₁.table.cell = [] := by
            have hnone := hcells i
            rw [if_pos rfl] at hnone
            simp [hm₁, hnone]
          rw [hgone, List.append_nil]
          apply List.filterMap_congr
          intro k hk
          rw [hcells k, if_neg (List.mem_range.mp hk).ne]
        refine ⟨m', ?_, hsound, ?_⟩
        · rw [hm', Option.map_some, hrest]
          rfl
        · rw [hleft, hrest, hbefore, List.filter_cons, hdrop]
          rfl
      · rw [if_neg hdrop, Option.bind_some, hltIteratorMapIncr_eq hs hlt]
        obtain ⟨m', hm', hsound, hleft⟩ := ih (i + 1) m hs hlt (by omega)
        have hone : [i].filterMap m.table.cell = [(m.table.keys i, m.table.vals i)] := by
          simp [hcell]
        refine ⟨m', ?_, hsound, ?_⟩
        · rw [hm', Option.map_some]
          rfl
        · rw [hleft, List.filter_cons, if_pos (by simpa using hdrop), List.range_succ,
            List.filterMap_append, hfront, hone, List.append_assoc, List.singleton_append]

end

section

variable {κ ν : Type} {hash : κ → UInt64} {equal : κ → κ → Bool}

/-- After every run of calls, a loop over the map comes to each of its entries once, and may remove
those that it has come to. -/
theorem visits_once (hc : Coherent hash equal) (keys : ℕ → κ) (vals : ℕ → ν)
    (ops : List (MapOp κ ν)) (hroom : ops.length * 2 < 4294967291) (drop : κ × ν → Bool) :
    ∃ m rs, (hltMapNew keys vals).run hash equal ops = some (m, rs) ∧
      ∃ (visited : List (κ × ν)) (m' : HltMap κ ν),
        visitLoop hash equal drop (m.table.nBuckets + 1) m (hltMapBegin m) =
          some (visited.map .ok, m') ∧
        visited.Perm (FiniteMap.run equal ⟨[], .none⟩ ops).1.entries ∧
        m'.table.entries = visited.filter fun e => !drop e := by
  obtain ⟨m, hm, h⟩ := run_represents hc ops (represents_hltMapNew keys vals)
    (by rw [List.length_nil, Nat.zero_add]; exact hroom)
  obtain ⟨m', hm', -, hleft⟩ := visitLoop_spec hc drop (m.table.nBuckets + 1) 0 m h.sound
    (Nat.zero_le _) (by omega)
  rw [entriesFrom_zero] at hm' hleft
  refine ⟨m, _, hm, m.table.entries, m', ?_, h.entries, ?_⟩
  · rw [hltMapBegin_eq]
    exact hm'
  · rw [hleft]
    rfl

end

/-- One of two entries is removed. -/
theorem visits_once_two : ∃ m rs, (hltMapNew (fun _ => 0) (fun _ => 0)).run UInt64.ofNat
    (fun a b : ℕ => a == b) [.insert 1 10, .insert 4 40] = some (m, rs) ∧
      ∃ (visited : List (ℕ × ℕ)) (m' : HltMap ℕ ℕ),
        visitLoop UInt64.ofNat (fun a b : ℕ => a == b) (fun e => e.2 == 10) (m.table.nBuckets + 1) m
          (hltMapBegin m) = some (visited.map .ok, m') ∧
        visited.Perm [(4, 40), (1, 10)] ∧
        m'.table.entries = visited.filter fun e => !(e.2 == 10) :=
  visits_once coherent_numbers (fun _ => 0) (fun _ => 0) [.insert 1 10, .insert 4 40] (by decide)
    fun e => e.2 == 10

end Hilti.Maps
