import Hilti.Justrx.Patterns

/-!
# Classes of regular patterns

What the functions of `ccl.c` add to a group while a regular pattern without assertions is parsed: a
class that is found there or added has the characters asked for.  A group may return an older class
with the same characters but other ranges; where classes get negated, all of them are kept free of
ranges that overlap.
-/

namespace Hilti.Justrx

open Hilti.Lib

set_option autoImplicit false

/-! ## Neat classes -/

def Ccl.Spaced (a : Ccl) : Prop :=
  ∀ r ∈ a.rangeList, ∀ s ∈ a.rangeList, r ≠ s → r.stop ≤ s.begin ∨ s.stop ≤ r.begin

structure Ccl.Neat (neg : Bool) (a : Ccl) : Prop where
  assertions_eq : a.assertions = ∅
  clean : a.Clean
  inOrder : a.InOrder
  spaced : neg = true → a.Spaced

def CclGroup.Has (group : CclGroup) (id : ℕ) (S : Set ℕ) : Prop :=
  ∃ p, group.ccls[id]? = some p ∧ p.ranges = some p.rangeList ∧ ∀ c, c ∈ p.chars ↔ c ∈ S

structure CclGroup.Neat (neg : Bool) (group : CclGroup) : Prop where
  ccls : ∀ a ∈ group.ccls, a.Neat neg
  epsilon : ∀ id, group.stdCcls .epsilon = some id → group.ccls[id]? = some ⟨∅, none⟩
  cached : ∀ std id, std ≠ .epsilon → group.stdCcls std = some id → group.Has id (std.chars below)

/-- The group has grown to one that has a class with the characters. -/
structure Adds (neg : Bool) (group : CclGroup) (S : Set ℕ) (r : CclGroup × ℕ) : Prop where
  neat : r.1.Neat neg
  ccls : group.ccls <+: r.1.ccls
  has : r.1.Has r.2 S

section

variable {neg : Bool} {group group' : CclGroup} {a : Ccl} {S T : Set ℕ} {id id' : ℕ}

theorem CclGroup.neat_create : CclGroup.create.Neat neg where
  ccls _ h := nomatch h
  epsilon _ h := nomatch h
  cached _ _ _ h := nomatch h

theorem getElem?_of_prefix {l l' : Group} (h : l <+: l') {p : Ccl} (hp : l[id]? = some p) :
    l'[id]? = some p := by
  obtain ⟨more, rfl⟩ := h
  rw [List.getElem?_append_left (List.getElem?_eq_some_iff.mp hp).1, hp]

theorem CclGroup.Has.mono (h : group.Has id S) (hpre : group.ccls <+: group'.ccls) :
    group'.Has id S := by
  obtain ⟨p, hp, hspec⟩ := h
  exact ⟨p, getElem?_of_prefix hpre hp, hspec⟩

theorem Adds.trans {r : CclGroup × ℕ} (hpre : group.ccls <+: group'.ccls)
    (h : Adds neg group' S r) : Adds neg group S r :=
  ⟨h.neat, hpre.trans h.ccls, h.has⟩

theorem CclGroup.Neat.grow (h : group.Neat neg) {l : Group} (hpre : group.ccls <+: l)
    (hl : ∀ a ∈ l, a.Neat neg) : CclGroup.Neat neg { group with ccls := l } where
  ccls := hl
  epsilon id hid := getElem?_of_prefix hpre (h.epsilon id hid)
  cached std id hstd hid := (h.cached std id hstd hid).mono hpre

theorem addTo_spec (h : group.Neat neg) (ha : a.Neat neg) (hranges : a.ranges = some a.rangeList) :
    Adds neg group a.chars (group.addTo a) := by
  unfold CclGroup.addTo groupAddTo
  cases hfind : groupFind group.ccls a with
  | none =>
    have hpre : group.ccls <+: group.ccls ++ [a] := List.prefix_append _ _
    refine ⟨h.grow hpre fun p hp => ?_, hpre, a, List.getElem?_concat_length, hranges, fun c => .rfl⟩
    cases List.mem_append.mp hp with
    | inl hp => exact h.ccls p hp
    | inr hp => exact List.mem_singleton.mp hp ▸ ha
  | some k =>
    obtain ⟨hlt, hcmp, -⟩ := List.findIdx?_eq_some_iff_getElem.mp hfind
    have hp := compare_ranges_isSome hranges hcmp
    have hchars := compare_chars (A := a.assertions) ⟨rfl, hranges⟩
      ⟨(compare_assertions hcmp).symm, hp⟩ hcmp
    refine ⟨h, List.prefix_rfl, group.ccls[k], List.getElem?_eq_getElem hlt, hp, fun c => ?_⟩
    rw [hchars]
    rfl

theorem Adds.congr {r : CclGroup × ℕ} (h : Adds neg group S r) (heq : S = T) :
    Adds neg group T r :=
  heq ▸ h

theorem apart_of_disjoint {r s : Range} (hr : r.begin < r.stop) (hs : s.begin < s.stop)
    (h : ∀ c, c ∈ r.chars → c ∉ s.chars) : r.stop ≤ s.begin ∨ s.stop ≤ r.begin := by
  by_contra hcon
  obtain ⟨h1, h2⟩ := not_or.mp hcon
  have hmax := h (max r.begin s.begin)
  rw [Range.mem_chars, Range.mem_chars] at hmax
  omega

/-! ## Ranges -/

theorem toNat_succ {c : UInt32} (h : c.toNat < charMax) : (c + 1).toNat = c.toNat + 1 := by
  rw [UInt32.toNat_add]
  exact Nat.mod_eq_of_lt (by unfold charMax at h; simpa using by omega)

theorem fromRange_spec (h : group.Neat neg) (first last : UInt32)
    (hle : first.toNat ≤ last.toNat) (hlt : last.toNat < charMax) :
    Adds neg group (charsIn [(first, last)]) (group.fromRange first (last + 1)) := by
  have hlist : rangeInsert ⟨first.toNat, (last + 1).toNat⟩ [] = [⟨first.toNat, last.toNat + 1⟩] := by
    rw [toNat_succ hlt]
    rfl
  unfold CclGroup.fromRange
  rw [hlist]
  refine (addTo_spec h ⟨rfl, fun r hr => ?_, ⟨List.pairwise_singleton _ _, fun r hr => ?_⟩,
    fun _ r hr s hs hne => ?_⟩ rfl).congr ?_
  · rw [List.mem_singleton.mp hr]
    exact Nat.lt_succ_of_le hle
  · rw [List.mem_singleton.mp hr]
    exact ⟨toNat_le_charMax first, hlt⟩
  · rw [List.mem_singleton.mp hr, List.mem_singleton.mp hs] at hne
    exact absurd rfl hne
  · ext c
    rw [Finset.mem_coe, Ccl.chars, mem_charsOf]
    simp [Ccl.rangeList, charsIn, Range.mem_chars]

theorem join_spec (h : group.Neat neg) (hS : group.Has id S) (hT : group.Has id' T)
    (hdisj : neg = true → Disjoint S T) :
    ∃ r, group.join id id' = some r ∧ Adds neg group (S ∪ T) r := by
  obtain ⟨a, ha, haranges, hachars⟩ := hS
  obtain ⟨b, hb, hbranges, hbchars⟩ := hT
  have hna := h.ccls a (List.mem_of_getElem? ha)
  have hnb := h.ccls b (List.mem_of_getElem? hb)
  unfold CclGroup.join
  simp only [ha, hb, hna.assertions_eq, hnb.assertions_eq, ne_eq, not_true_eq_false, if_false]
  refine ⟨_, rfl, ?_⟩
  set rs := CclGroup.rangesJoin (CclGroup.rangesJoin [] a.rangeList) b.rangeList with hrs
  have hmem : ∀ r, r ∈ rs ↔ r ∈ b.rangeList ∨ r ∈ a.rangeList := by
    intro r
    rw [hrs, mem_rangesJoin, mem_rangesJoin]
    simp only [List.not_mem_nil, or_false]
  have hclean : ∀ r ∈ rs, r.begin < r.stop := fun r hr =>
    ((hmem r).mp hr).elim (hnb.clean r) (hna.clean r)
  refine (addTo_spec (a := ⟨∅, some rs⟩) h ⟨rfl, hclean, ⟨?_, fun r hr => ?_⟩,
    fun hneg r hr s hs hne => ?_⟩ rfl).congr ?_
  · exact pairwise_insertAll (pairwise_insertAll List.Pairwise.nil)
  · exact ((hmem r).mp hr).elim (hnb.inOrder.bounded r) (hna.inOrder.bounded r)
  · -- ranges of different classes have no character in common
    have hcross : ∀ r ∈ a.rangeList, ∀ s ∈ b.rangeList, ∀ c, c ∈ r.chars → c ∉ s.chars := by
      intro r hr s hs c hcr hcs
      exact Set.disjoint_left.mp (hdisj hneg) ((hachars c).mp (mem_charsOf.mpr ⟨r, hr, hcr⟩))
        ((hbchars c).mp (mem_charsOf.mpr ⟨s, hs, hcs⟩))
    cases (hmem r).mp hr with
    | inl hr' =>
      cases (hmem s).mp hs with
      | inl hs' => exact hnb.spaced hneg r hr' s hs' hne
      | inr hs' => exact (apart_of_disjoint (hclean s hs) (hclean r hr) (hcross s hs' r hr')).symm
    | inr hr' =>
      cases (hmem s).mp hs with
      | inl hs' => exact apart_of_disjoint (hclean r hr) (hclean s hs) (hcross r hr' s hs')
      | inr hs' => exact hna.spaced hneg r hr' s hs' hne
  · ext c
    rw [Finset.mem_coe, Ccl.chars, mem_charsOf, Set.mem_union, ← hachars, ← hbchars, Ccl.chars,
      Ccl.chars, mem_charsOf, mem_charsOf]
    constructor
    · intro hc
      obtain ⟨r, hr, hcr⟩ := hc
      exact ((hmem r).mp hr).elim (fun hr => .inr ⟨r, hr, hcr⟩) fun hr => .inl ⟨r, hr, hcr⟩
    · intro hc
      cases hc with
      | inl hc =>
        obtain ⟨r, hr, hcr⟩ := hc
        exact ⟨r, (hmem r).mpr (.inr hr), hcr⟩
      | inr hc =>
        obtain ⟨r, hr, hcr⟩ := hc
        exact ⟨r, (hmem r).mpr (.inl hr), hcr⟩

/-! ## Standard classes -/

def Fitting (ranges : List (UInt32 × UInt32)) : Prop :=
  (∀ r ∈ ranges, r.1.toNat ≤ r.2.toNat ∧ r.2.toNat < charMax) ∧
    ranges.Pairwise fun r s => r.2.toNat < s.1.toNat ∨ s.2.toNat < r.1.toNat

theorem charsIn_cons (r : UInt32 × UInt32) (rs : List (UInt32 × UInt32)) :
    charsIn (r :: rs) = charsIn [r] ∪ charsIn rs := by
  ext c
  simp [charsIn]

theorem addRanges_spec (ranges : List (UInt32 × UInt32)) : ∀ {S : Set ℕ} {r : CclGroup × ℕ},
    r.1.Neat neg → r.1.Has r.2 S → Fitting ranges → Disjoint S (charsIn ranges) →
    ∃ r', ranges.foldlM (fun r range => r.1.addRange r.2 range.1 range.2) r = some r' ∧
      Adds neg r.1 (S ∪ charsIn ranges) r' := by
  induction ranges with
  | nil =>
    intro S r h hS _ _
    refine ⟨r, rfl, h, List.prefix_rfl, ?_⟩
    simpa [charsIn] using hS
  | cons range ranges ih =>
    intro S r h hS hfit hdisj
    obtain ⟨hall, hpair⟩ := hfit
    obtain ⟨hrange, hall⟩ := List.forall_mem_cons.mp hall
    obtain ⟨hapart, hpair⟩ := List.pairwise_cons.mp hpair
    rw [charsIn_cons, Set.disjoint_union_right] at hdisj
    have hadded := fromRange_spec h _ _ hrange.1 hrange.2
    obtain ⟨r₁, hr₁, hadds⟩ := join_spec hadded.neat (hS.mono hadded.ccls) hadded.has
      fun _ => hdisj.1
    have hrest : Disjoint (charsIn [range]) (charsIn ranges) := by
      refine Set.disjoint_left.mpr fun c hc hcs => ?_
      obtain ⟨q, hq, hcq⟩ := hc
      obtain ⟨s, hs, hcs⟩ := hcs
      rw [List.mem_singleton.mp hq] at hcq
      have hside := hapart s hs
      omega
    obtain ⟨r', hr', hadds'⟩ := ih hadds.neat hadds.has ⟨hall, hpair⟩
      (Set.disjoint_union_left.mpr ⟨hdisj.2, hrest⟩)
    refine ⟨r', ?_, ?_⟩
    · rw [List.foldlM_cons]
      exact Option.bind_eq_some_iff.mpr ⟨r₁, hr₁, hr'⟩
    · rw [charsIn_cons, ← Set.union_assoc]
      exact hadds'.trans (hadded.ccls.trans hadds.ccls)

theorem localCcl_spec (h : group.Neat neg) {ranges : List (UInt32 × UInt32)}
    (hfit : Fitting ranges) :
    ∃ r, group.localCcl ranges = some r ∧ Adds neg group (charsIn ranges) r := by
  have hempty : Adds neg group ∅ group.empty := by
    refine (addTo_spec (a := ⟨∅, some []⟩) h ⟨rfl, ?_, ⟨List.Pairwise.nil, ?_⟩, fun _ => ?_⟩ rfl).congr
      ?_
    · exact fun r hr => (nomatch hr)
    · exact fun r hr => (nomatch hr)
    · exact fun r hr => (nomatch hr)
    · ext c
      simp [Ccl.chars, Ccl.rangeList, mem_charsOf]
  obtain ⟨r, hr, hadds⟩ := addRanges_spec ranges hempty.neat hempty.has hfit
    (Set.empty_disjoint _)
  rw [Set.empty_union] at hadds
  exact ⟨r, hr, hadds.trans hempty.ccls⟩

theorem addAgain_spec {r : CclGroup × ℕ} (h : Adds neg group S r) :
    ∃ r', CclGroup.addAgain r = some r' ∧ Adds neg group S r' := by
  obtain ⟨p, hp, hranges, hchars⟩ := h.has
  have hadds := addTo_spec h.neat (h.neat.ccls p (List.mem_of_getElem? hp)) hranges
  refine ⟨r.1.addTo p, by rw [CclGroup.addAgain, hp, Option.map_some], ?_⟩
  exact (hadds.trans h.ccls).congr (Set.ext hchars)

theorem computeStd_spec (h : group.Neat neg) {std : StdCcl} (hstd : std ≠ .epsilon) :
    ∃ r, group.computeStd std = some r ∧ Adds neg group (std.chars below) r := by
  have hlocal : ∀ ranges, Fitting ranges → ∃ r,
      (group.localCcl ranges).bind CclGroup.addAgain = some r ∧ Adds neg group (charsIn ranges) r := by
    intro ranges hfit
    obtain ⟨r, hr, hadds⟩ := localCcl_spec h hfit
    obtain ⟨r', hr', hadds'⟩ := addAgain_spec hadds
    exact ⟨r', Option.bind_eq_some_iff.mpr ⟨r, hr, hr'⟩, hadds'⟩
  cases std with
  | epsilon => exact absurd rfl hstd
  | any =>
    have hlast : (UInt32.ofNat (charMax - 1)).toNat = charMax - 1 := by decide
    have hrange := fromRange_spec h 0 (UInt32.ofNat (charMax - 1))
      (Nat.zero_le _) (by rw [hlast]; decide)
    have hbelow : charsIn [(0, UInt32.ofNat (charMax - 1))] = below := by
      ext c
      simp only [charsIn, List.mem_singleton, exists_eq_left, Set.mem_ofPred_eq, hlast, below]
      have hpos : 0 < charMax := by decide
      exact ⟨fun hc => by omega, fun hc => ⟨Nat.zero_le c, by omega⟩⟩
    exact addAgain_spec (hrange.congr hbelow)
  | lower => exact hlocal _ (by simp [Fitting, charMax])
  | upper => exact hlocal _ (by simp [Fitting, charMax])
  | word => exact hlocal _ (by simp [Fitting, charMax])
  | digit => exact hlocal _ (by simp [Fitting, charMax])
  | blank => exact hlocal _ (by simp [Fitting, charMax])

theorem fromStdCcl_spec (h : group.Neat neg) (std : StdCcl) (hstd : std ≠ .epsilon) :
    ∃ r, group.fromStdCcl std = some r ∧ Adds neg group (std.chars below) r := by
  unfold CclGroup.fromStdCcl
  cases hcached : group.stdCcls std with
  | some id => exact ⟨(group, id), rfl, h, List.prefix_rfl, h.cached std id hstd hcached⟩
  | none =>
    obtain ⟨r, hr, hadds⟩ := computeStd_spec h hstd
    refine ⟨({ r.1 with stdCcls := fun s => if s = std then some r.2 else r.1.stdCcls s }, r.2),
      by simp only [hr, Option.map_some], ⟨hadds.neat.ccls, ?_, ?_⟩, hadds.ccls, hadds.has⟩
    · intro id hid
      change (if StdCcl.epsilon = std then some r.2 else r.1.stdCcls .epsilon) = some id at hid
      rw [if_neg (Ne.symm hstd)] at hid
      exact hadds.neat.epsilon id hid
    · intro std' id hstd' hid
      change (if std' = std then some r.2 else r.1.stdCcls std') = some id at hid
      by_cases heq : std' = std
      · subst heq
        rw [if_pos rfl] at hid
        cases hid
        exact hadds.has
      · rw [if_neg heq] at hid
        exact hadds.neat.cached std' id hstd' hid

theorem fromStdCcl_epsilon (h : group.Neat neg) {r : CclGroup × ℕ}
    (hr : group.fromStdCcl .epsilon = some r) : r.1.Neat neg ∧ group.ccls <+: r.1.ccls := by
  unfold CclGroup.fromStdCcl at hr
  cases hcached : group.stdCcls .epsilon with
  | some id =>
    rw [hcached] at hr
    cases hr
    exact ⟨h, List.prefix_rfl⟩
  | none =>
    rw [hcached] at hr
    cases hr
    obtain ⟨hpre, hget⟩ := groupAddTo_epsilon group.ccls
    have hneat : ∀ a ∈ (groupAddTo group.ccls ⟨∅, none⟩).1, a.Neat neg := by
      intro a ha
      unfold groupAddTo at ha
      split at ha
      · exact h.ccls a ha
      · cases List.mem_append.mp ha with
        | inl ha => exact h.ccls a ha
        | inr ha =>
          rw [List.mem_singleton.mp ha]
          refine ⟨rfl, ?_, ⟨List.Pairwise.nil, ?_⟩, fun _ => ?_⟩
          · exact fun r hr => (nomatch hr)
          · exact fun r hr => (nomatch hr)
          · exact fun r hr => (nomatch hr)
    have hgrown := h.grow hpre hneat
    refine ⟨⟨hneat, fun id hid => ?_, fun std id hstd hid => ?_⟩, hpre⟩
    · change some (groupAddTo group.ccls ⟨∅, none⟩).2 = some id at hid
      cases hid
      exact hget
    · change (if std = .epsilon then _ else group.stdCcls std) = some id at hid
      rw [if_neg hstd] at hid
      exact hgrown.cached std id hstd hid

/-! ## Elements -/

theorem cclElem_spec (h : group.Neat neg) {elem : CclElem} (helem : elem.Regular) :
    ∃ r, group.cclElem elem = some r ∧ Adds neg group elem.chars r := by
  cases elem with
  | range first last => exact ⟨_, rfl, fromRange_spec h first last helem.1 helem.2⟩
  | codepoint cp => exact ⟨_, rfl, fromRange_spec h cp cp le_rfl helem⟩
  | dynccl std =>
    obtain ⟨r, hr, hadds⟩ := fromStdCcl_spec h _ helem.1
    refine ⟨r, hr, hadds.congr ?_⟩
    cases std with
    | any => exact absurd rfl helem.2
    | _ => rfl

theorem cclElems_spec (elems : List CclElem) : ∀ {group : CclGroup}, group.Neat neg →
    (∀ elem ∈ elems, elem.Regular) → ∃ r, group.cclElems elems = some r ∧ r.1.Neat neg ∧
      group.ccls <+: r.1.ccls ∧
      List.Forall₂ (fun id elem => r.1.Has id elem.chars) r.2 elems := by
  induction elems with
  | nil =>
    intro group h _
    exact ⟨(group, []), rfl, h, List.prefix_rfl, .nil⟩
  | cons elem elems ih =>
    intro group h helems
    obtain ⟨helem, helems⟩ := List.forall_mem_cons.mp helems
    obtain ⟨r, hr, hadds⟩ := cclElem_spec h helem
    obtain ⟨rest, hrest, hneat, hpre, hall⟩ := ih hadds.neat helems
    refine ⟨(rest.1, r.2 :: rest.2), ?_, hneat, hadds.ccls.trans hpre,
      .cons (hadds.has.mono hpre) hall⟩
    rw [CclGroup.cclElems, hr, Option.bind_eq_bind, Option.bind_some, hrest]
    rfl

theorem joinElems_spec (h : group.Neat neg) {elems : List CclElem} : ∀ {ids : List ℕ},
    List.Forall₂ (fun id elem => group.Has id elem.chars) ids elems → elems ≠ [] →
    (neg = true → elems.Pairwise fun elem elem' => Disjoint elem.chars elem'.chars) →
    ∃ r, group.joinElems ids = some r ∧ Adds neg group (elemsChars elems) r := by
  induction elems with
  | nil => exact fun _ hne _ => absurd rfl hne
  | cons elem elems ih =>
    intro ids hall _ honce
    cases hall with
    | cons hhas hall =>
      rename_i id ids
      cases elems with
      | nil =>
        cases hall
        refine ⟨(group, id), rfl, h, List.prefix_rfl, ?_⟩
        rw [elemsChars_singleton]
        exact hhas
      | cons elem' elems =>
        obtain ⟨r, hr, hadds⟩ := ih hall (List.cons_ne_nil _ _)
          fun hneg => (List.pairwise_cons.mp (honce hneg)).2
        obtain ⟨r', hr', hadds'⟩ := join_spec hadds.neat (hhas.mono hadds.ccls) hadds.has
          fun hneg => by
            refine Set.disjoint_left.mpr fun c hc hcs => ?_
            obtain ⟨e, he, hce⟩ := hcs
            exact Set.disjoint_left.mp ((List.pairwise_cons.mp (honce hneg)).1 e he) hc hce
        refine ⟨r', ?_, (hadds'.trans hadds.ccls).congr (elemsChars_cons elem (elem' :: elems)).symm⟩
        cases hall with
        | cons hhas' hall' =>
          rw [CclGroup.joinElems, hr]
          · exact hr'
          · exact List.cons_ne_nil _ _

theorem parseCcl_spec (h : group.Neat neg) {elems : List CclElem} (helems : RegularElems neg elems) :
    ∃ r, group.parseCcl elems = some r ∧ Adds neg group (elemsChars elems) r := by
  obtain ⟨r, hr, hneat, hpre, hall⟩ := cclElems_spec elems h helems.regular
  obtain ⟨r', hr', hadds⟩ := joinElems_spec hneat hall helems.nonempty helems.once
  exact ⟨r', Option.bind_eq_some_iff.mpr ⟨r, hr, hr'⟩, hadds.trans hpre⟩

/-! ## Negation -/

theorem Ccl.Neat.before (ha : a.Neat true) {r s : Range} (hr : r ∈ a.rangeList)
    (hs : s ∈ a.rangeList) (h : r.Before s) : r.stop ≤ s.begin := by
  have hne : r ≠ s := by
    intro heq
    subst heq
    unfold Range.Before at h
    omega
  have hstop := ha.clean s hs
  unfold Range.Before at h
  cases ha.spaced rfl r hr s hs hne with
  | inl hle => exact hle
  | inr hle => omega

theorem Ccl.Neat.noneOvertaken (ha : a.Neat true) : NoneOvertaken a.rangeList := by
  intro i j r s hij hi hj
  obtain ⟨hilt, rfl⟩ := List.getElem?_eq_some_iff.mp hi
  obtain ⟨hjlt, rfl⟩ := List.getElem?_eq_some_iff.mp hj
  have hbefore := List.pairwise_iff_getElem.mp ha.inOrder.sorted i j hilt hjlt hij
  have hle := ha.before (List.getElem_mem hilt) (List.getElem_mem hjlt) hbefore
  have hstop := ha.clean _ (List.getElem_mem hjlt)
  omega

theorem gaps_begin {q : Range} {rs : List Range} {last : ℕ} (h : q ∈ gaps last rs) :
    q.begin = last ∨ ∃ r ∈ rs, q.begin = r.stop := by
  induction rs generalizing last with
  | nil => exact .inl (by rw [List.mem_singleton.mp h])
  | cons r rs ih =>
    cases List.mem_cons.mp h with
    | inl h => exact .inl (by rw [h])
    | inr h =>
      refine .inr ?_
      cases ih h with
      | inl h => exact ⟨r, List.mem_cons_self, h⟩
      | inr h =>
        obtain ⟨r', hr', h⟩ := h
        exact ⟨r', List.mem_cons_of_mem r hr', h⟩

theorem pairwise_gaps {rs : List Range} (hclean : ∀ r ∈ rs, r.begin < r.stop)
    (hrs : rs.Pairwise fun r s => r.stop ≤ s.begin) (last : ℕ) :
    (gaps last rs).Pairwise fun q q' => q.stop ≤ q'.begin := by
  induction rs generalizing last with
  | nil => exact List.pairwise_singleton _ _
  | cons r rs ih =>
    obtain ⟨hr, hclean⟩ := List.forall_mem_cons.mp hclean
    obtain ⟨hfirst, hrs⟩ := List.pairwise_cons.mp hrs
    refine List.pairwise_cons.mpr ⟨fun q hq => ?_, ih hclean hrs r.stop⟩
    cases gaps_begin hq with
    | inl h =>
      rw [h]
      exact hr.le
    | inr h =>
      obtain ⟨r', hr', h⟩ := h
      rw [h]
      exact hr.le.trans ((hfirst r' hr').trans (hclean r' hr').le)

theorem negateRanges_neat (ha : a.Neat true) :
    (⟨∅, some (CclGroup.negateRanges a.rangeList)⟩ : Ccl).Neat true := by
  have hgap : ∀ q ∈ CclGroup.negateRanges a.rangeList,
      q ∈ gaps 0 a.rangeList ∧ q.begin < q.stop := by
    intro q hq
    obtain ⟨hq, hlt⟩ := mem_cleanup.mp hq
    exact ⟨((mem_negateLoop q _ [] 0).mp hq).resolve_right List.not_mem_nil, hlt⟩
  have hpair := pairwise_gaps ha.clean (ha.inOrder.sorted.imp_of_mem ha.before) 0
  refine ⟨rfl, fun q hq => (hgap q hq).2, ⟨pairwise_cleanup _, ?_⟩, fun _ q hq q' hq' hne => ?_⟩
  · intro q hq
    obtain ⟨hq, hlt⟩ := hgap q hq
    have hstop : ∀ {last : ℕ} {rs : List Range}, (∀ r ∈ rs, r.begin ≤ charMax) →
        q ∈ gaps last rs → q.stop ≤ charMax := by
      intro last rs hrs h
      induction rs generalizing last with
      | nil => exact (List.mem_singleton.mp h) ▸ le_rfl
      | cons r rs ih =>
        obtain ⟨hr, hrs⟩ := List.forall_mem_cons.mp hrs
        cases List.mem_cons.mp h with
        | inl h => exact h ▸ hr
        | inr h => exact ih hrs h
    have hle := hstop (fun r hr => (ha.inOrder.bounded r hr).1) hq
    exact ⟨hlt.le.trans hle, hle⟩
  · obtain ⟨i, hi, rfl⟩ := List.mem_iff_getElem.mp (hgap q hq).1
    obtain ⟨j, hj, rfl⟩ := List.mem_iff_getElem.mp (hgap q' hq').1
    have hij : i ≠ j := fun h => hne (by subst h; rfl)
    have hlt := List.pairwise_iff_getElem.mp hpair
    cases hij.lt_or_gt with
    | inl h => exact .inl (hlt i j hi hj h)
    | inr h => exact .inr (hlt j i hj hi h)

theorem negate_spec (h : group.Neat true) (hS : group.Has id S) (hne : S.Nonempty) :
    ∃ r, group.negate id = some r ∧ Adds true group (below \ S) r := by
  obtain ⟨a, ha, hranges, hchars⟩ := hS
  have hneat := h.ccls a (List.mem_of_getElem? ha)
  obtain ⟨c, hc⟩ := hne
  obtain ⟨q, hq, -⟩ := mem_charsOf.mp ((hchars c).mpr hc)
  obtain ⟨r, rs, hrs⟩ := List.exists_cons_of_ne_nil (List.ne_nil_of_mem hq)
  have hexact := (negateRanges_exact_iff hneat.inOrder.sorted
    fun r hr => (hneat.inOrder.bounded r hr).2).mpr hneat.noneOvertaken
  have hadds := addTo_spec h (negateRanges_neat hneat) rfl
  refine ⟨_, ?_, hadds.congr ?_⟩
  · rw [CclGroup.negate, ha]
    simp only [hranges, hrs, hneat.assertions_eq]
  · ext c
    rw [Finset.mem_coe, Set.mem_sdiff, ← hchars]
    constructor
    · intro hc
      obtain ⟨q, hq, hcq⟩ := mem_charsOf.mp hc
      have hlt : c < charMax := by
        have hstop := ((negateRanges_neat hneat).inOrder.bounded q hq).2
        rw [Range.mem_chars] at hcq
        omega
      exact ⟨hlt, (hexact c hlt).mp hc⟩
    · intro hc
      exact (hexact c hc.1).mpr hc.2

end

end Hilti.Justrx
