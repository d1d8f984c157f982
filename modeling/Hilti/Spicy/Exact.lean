import Hilti.Spicy.Tables

/-!
# Exactness of the tables

When the fixpoint loop of `_computeTables` ends, its tables are closed under the
rules for nullable productions, first and follow symbols, and so they hold all that
the grammar derives.  The loop always ends, since the tables only grow.
-/

namespace Hilti.Spicy

open Hilti.Lib

set_option autoImplicit false

variable {ι : Type} {g : Productions ι} {root : ι} {s : Grammar ι} {t : Tables}

/-! ## Completeness at the end of the loop -/

theorem isNonTerminal_of_mem_rhss {p : ι} {rhs : List ι} (h : rhs ∈ g.rhss p) :
    (g.kind p).isNonTerminal = true := by
  unfold Productions.rhss at h
  cases hk : g.kind p <;> simp_all [Kind.rhss, Kind.isNonTerminal]

theorem Collected.rule_iff (hs : Collected g root s) (p : ι) (u : List (Symbol ι ι)) :
    ⟨p, u⟩ ∈ g.rules g.rhss root ↔
      p ∈ s.nterms ∧ ∃ rhs ∈ g.rhss p, g.cfgString rhs = u := by
  rw [hs.mem_nterms]
  constructor
  · rintro ⟨hp, rhs, hrhs, rfl⟩
    exact ⟨⟨hp, isNonTerminal_of_mem_rhss hrhs⟩, rhs, hrhs, rfl⟩
  · rintro ⟨⟨hp, -⟩, hex⟩
    exact ⟨hp, hex⟩

theorem isNullable_of_forall {l : List ι} (hn : Nullable (g.rules g.rhss root) (g.cfgString l))
    (h : ∀ A, .nonterminal A ∈ g.cfgString l → t.nullableAt (s.symbol A) = true) :
    isNullable g s.symbol t l = true := by
  rw [isNullable_iff]
  intro p hp
  obtain ⟨a, b, rfl⟩ := List.append_of_mem hp
  cases he : (g.kind p).isEpsilon with
  | true => exact .inl rfl
  | false =>
    right
    cases hterm : (g.kind p).isTerminal with
    | true =>
      rw [cfgString_append, cfgString_cons_terminal hterm, nullable_append] at hn
      exact absurd hn.2 (not_nullable_terminal p _)
    | false =>
      have hnt := (isNonTerminal_iff p).mpr ⟨he, hterm⟩
      refine ⟨hnt, h p ?_⟩
      rw [cfgString_append, cfgString_cons_nonterminal hnt]
      simp

theorem RoundFacts.nullableAt (hf : RoundFacts g s t) (hs : Collected g root s)
    {u : List (Symbol ι ι)} (h : Nullable (g.rules g.rhss root) u) :
    ∀ A, .nonterminal A ∈ u → t.nullableAt (s.symbol A) = true := by
  induction h with
  | nil => simp
  | @cons B rhs u hr hrhs _ ihrhs ihu =>
    intro A hA
    rcases List.mem_cons.mp hA with heq | hA
    · obtain ⟨hB, l, hl, rfl⟩ := (hs.rule_iff B rhs).mp hr
      obtain rfl : A = B := by simpa using heq
      exact (hf A hB l hl).1 (isNullable_of_forall hrhs ihrhs)
    · exact ihu A hA

theorem RoundFacts.isNullable (hf : RoundFacts g s t) (hs : Collected g root s) {l : List ι}
    (h : Nullable (g.rules g.rhss root) (g.cfgString l)) :
    isNullable g s.symbol t l = true :=
  isNullable_of_forall h (hf.nullableAt hs h)

def symbolFirst (s : Grammar ι) (t : Tables) : Symbol ι ι → Finset String
  | .terminal q => {s.symbol q}
  | .nonterminal A => t.firstAt (s.symbol A)

theorem getFirst_eq {p : ι} {x : Symbol ι ι} (h : g.cfgSymbol p = some x) :
    getFirst g s.symbol t p = symbolFirst s t x := by
  cases x with
  | terminal q =>
    obtain ⟨rfl, hterm⟩ := (cfgSymbol_eq_terminal p q).mp h
    simp [getFirst, symbolFirst, hterm, not_isEpsilon_of_isTerminal hterm]
  | nonterminal A =>
    obtain ⟨rfl, hn⟩ := (cfgSymbol_eq_nonterminal p A).mp h
    obtain ⟨he, hterm⟩ := (isNonTerminal_iff p).mp hn
    simp [getFirst, symbolFirst, he, hterm]

theorem RoundFacts.first_split (hf : RoundFacts g s t) (hs : Collected g root s)
    {u : List (Symbol ι ι)} {q : ι} (h : First (g.rules g.rhss root) u q) :
    ∃ a x b, u = a ++ x :: b ∧ Nullable (g.rules g.rhss root) a ∧
      s.symbol q ∈ symbolFirst s t x := by
  induction h with
  | terminal q u => exact ⟨[], .terminal q, u, rfl, .nil, by simp [symbolFirst]⟩
  | @expand A rhs q u hr _ ih =>
    obtain ⟨hA, l, hl, rfl⟩ := (hs.rule_iff A rhs).mp hr
    obtain ⟨a, x, b, heq, hnull, hmem⟩ := ih
    obtain ⟨la, p, lb, rfl, rfl, hp, -⟩ := cfgString_eq_append_cons heq
    refine ⟨[], .nonterminal A, u, rfl, .nil, ?_⟩
    have hfacts := ((hf A hA _ hl).2 la p lb rfl).1 (hf.isNullable hs hnull)
    exact hfacts (getFirst_eq hp ▸ hmem)
  | @skip A u q hA _ ih =>
    obtain ⟨a, x, b, rfl, hnull, hmem⟩ := ih
    exact ⟨.nonterminal A :: a, x, b, rfl, (nullable_cons _ _).mpr ⟨hA, hnull⟩, hmem⟩

theorem RoundFacts.firstAt (hf : RoundFacts g s t) (hs : Collected g root s) {A q : ι}
    (h : First (g.rules g.rhss root) [.nonterminal A] q) :
    s.symbol q ∈ t.firstAt (s.symbol A) := by
  obtain ⟨a, x, b, heq, -, hmem⟩ := hf.first_split hs h
  cases a with
  | nil =>
    obtain ⟨rfl, -⟩ : Symbol.nonterminal A = x ∧ [] = b := by simpa using heq
    exact hmem
  | cons y a => simp at heq

theorem RoundFacts.followAt (hf : RoundFacts g s t) (hs : Collected g root s) {A q : ι}
    (h : Follow (g.rules g.rhss root) A q) : s.symbol q ∈ t.followAt (s.symbol A) := by
  induction h with
  | @next A B u v q hr hv =>
    obtain ⟨hB, l, hl, heq⟩ := (hs.rule_iff B _).mp hr
    obtain ⟨lu, p, lv, rfl, -, hp, rfl⟩ := cfgString_eq_append_cons heq
    obtain ⟨rfl, hn⟩ := (cfgSymbol_eq_nonterminal p A).mp hp
    obtain ⟨a, x, b, heqv, hnull, hmem⟩ := hf.first_split hs hv
    obtain ⟨la, j, lb, rfl, rfl, hj, -⟩ := cfgString_eq_append_cons heqv
    have hfacts := (((hf B hB _ hl).2 lu p _ rfl).2 hn).2 la j lb rfl (hf.isNullable hs hnull)
    exact hfacts (getFirst_eq hj ▸ hmem)
  | @last A B u v q hr hv _ ih =>
    obtain ⟨hB, l, hl, heq⟩ := (hs.rule_iff B _).mp hr
    obtain ⟨lu, p, lv, rfl, -, hp, rfl⟩ := cfgString_eq_append_cons heq
    obtain ⟨rfl, hn⟩ := (cfgSymbol_eq_nonterminal p A).mp hp
    exact (((hf B hB _ hl).2 lu p _ rfl).2 hn).1 (hf.isNullable hs hv) ih

/-! ## The terminals that first and follow symbols name -/

/-- The terminals below `root`. -/
def TerminalBelow (g : Productions ι) (root q : ι) : Prop :=
  g.Below root q ∧ (g.kind q).isTerminal = true

theorem terminalBelow_of_rule {A q : ι} {u : List (Symbol ι ι)}
    (hr : ⟨A, u⟩ ∈ g.rules g.rhss root) (hq : .terminal q ∈ u) : TerminalBelow g root q := by
  obtain ⟨hA, rhs, hrhs, rfl⟩ := hr
  obtain ⟨p, hp, hsym⟩ := List.mem_filterMap.mp hq
  obtain ⟨rfl, hterm⟩ := (cfgSymbol_eq_terminal p q).mp hsym
  exact ⟨Productions.Below.child hA (List.mem_flatten.mpr ⟨rhs, hrhs, hp⟩), hterm⟩

theorem terminalBelow_of_first {u : List (Symbol ι ι)} {q : ι}
    (h : First (g.rules g.rhss root) u q)
    (hu : ∀ q, .terminal q ∈ u → TerminalBelow g root q) : TerminalBelow g root q := by
  induction h with
  | terminal q u => exact hu q (by simp)
  | expand u hr _ ih => exact ih fun q hq => terminalBelow_of_rule hr hq
  | skip _ _ ih => exact ih fun q hq => hu q (by simp [hq])

theorem terminalBelow_of_follow {A q : ι} (h : Follow (g.rules g.rhss root) A q) :
    TerminalBelow g root q := by
  induction h with
  | next hr hv => exact terminalBelow_of_first hv fun q hq => terminalBelow_of_rule hr (by simp [hq])
  | last _ _ _ ih => exact ih

theorem Collected.terminal_inj (hs : Collected g root s) {q q' : ι}
    (hq : TerminalBelow g root q) (hq' : TerminalBelow g root q')
    (h : s.symbol q = s.symbol q') : q = q' :=
  hs.symbol_inj hq.1 hq'.1 (not_isEpsilon_of_isTerminal hq.2) (not_isEpsilon_of_isTerminal hq'.2) h

/-! ## Termination -/

theorem initTables_sound (root : ι) : Sound g root s (initTables s.symbol s.nterms) where
  first_isSome p hp := by
    have : ∃ q ∈ s.nterms, s.symbol q = s.symbol p := ⟨p, hp, rfl⟩
    simp [initTables, this]
  follow_isSome p hp := by
    have : ∃ q ∈ s.nterms, s.symbol q = s.symbol p := ⟨p, hp, rfl⟩
    simp [initTables, this]
  nullable p _ h := by
    simp only [Tables.nullableAt, initTables] at h
    split at h <;> simp at h
  first p _ x h := by
    simp only [Tables.firstAt, initTables] at h
    split at h <;> simp at h
  follow p _ x h := by
    simp only [Tables.followAt, initTables] at h
    split at h <;> simp at h

/-- Bounds on the number of entries that the tables of `n` productions can have. -/
def tablesBound (n : ℕ) : ℕ :=
  n * (1 + n + n)

variable [Fintype ι]

theorem Sound.size_le (ht : Sound g root s t) :
    tablesSize s t ≤ tablesBound (Fintype.card ι) := by
  have hset : ∀ S : Finset String, (∀ x ∈ S, ∃ q, s.symbol q = x) →
      S.card ≤ Fintype.card ι := by
    intro S hS
    refine (Finset.card_le_card (t := Finset.univ.image s.symbol) fun x hx => ?_).trans
      Finset.card_image_le
    obtain ⟨q, rfl⟩ := hS x hx
    simp
  have hentry : ∀ x ∈ keys s, entrySize t x ≤ 1 + Fintype.card ι + Fintype.card ι := by
    intro x hx
    obtain ⟨p, hp, rfl⟩ : ∃ p ∈ s.nterms, s.symbol p = x := by simpa [keys] using hx
    have h1 : (if t.nullableAt (s.symbol p) = true then 1 else 0) ≤ 1 := by split <;> omega
    have h2 := hset (t.firstAt (s.symbol p)) fun x hx =>
      (ht.first p hp x hx).imp fun q h => h.1.2.2
    have h3 := hset (t.followAt (s.symbol p)) fun x hx =>
      (ht.follow p hp x hx).imp fun q h => h.1.2.2
    unfold entrySize
    omega
  have hkeys : (keys s).card ≤ Fintype.card ι :=
    hset _ fun x hx => by
      obtain ⟨p, -, rfl⟩ : ∃ p ∈ s.nterms, s.symbol p = x := by simpa [keys] using hx
      exact ⟨p, rfl⟩
  calc tablesSize s t ≤ (keys s).card • (1 + Fintype.card ι + Fintype.card ι) :=
        Finset.sum_le_card_nsmul _ _ _ hentry
    _ ≤ tablesBound (Fintype.card ι) := Nat.mul_le_mul_right _ hkeys

theorem tablesLoop_spec (hs : Collected g root s) {fuel : ℕ}
    (hf : tablesBound (Fintype.card ι) < fuel) :
    ∃ t, tablesLoop g s.symbol s.nterms fuel (initTables s.symbol s.nterms) = some t ∧
      Sound g root s t ∧ RoundFacts g s t :=
  untilUnchanged_spec (round_settles hs) (fun _ ht => ht.size_le) fuel _
    (initTables_sound root) (by omega)

/-! ## The tables and the grammar -/

/-- Tables as the loop leaves them for a collected grammar. -/
structure TablesOk (g : Productions ι) (root : ι) (s : Grammar ι) (t : Tables) : Prop where
  collected : Collected g root s
  sound : Sound g root s t
  facts : RoundFacts g s t

omit [Fintype ι]

namespace TablesOk

theorem nullableAt_iff (h : TablesOk g root s t) {p : ι} (hp : p ∈ s.nterms) :
    t.nullableAt (s.symbol p) = true ↔ Nullable (g.rules g.rhss root) [.nonterminal p] :=
  ⟨h.sound.nullable p hp, fun hn => h.facts.nullableAt h.collected hn p (by simp)⟩

theorem isNullable_iff (h : TablesOk g root s t) {l : List ι} (hl : Listed g root s l) :
    isNullable g s.symbol t l = true ↔ Nullable (g.rules g.rhss root) (g.cfgString l) :=
  ⟨h.sound.isNullable hl, h.facts.isNullable h.collected⟩

theorem mem_firstAt_iff (h : TablesOk g root s t) {p : ι} (hp : p ∈ s.nterms) (x : String) :
    x ∈ t.firstAt (s.symbol p) ↔
      ∃ q, First (g.rules g.rhss root) [.nonterminal p] q ∧ s.symbol q = x := by
  constructor
  · intro hx
    obtain ⟨q, hq, hfirst⟩ := h.sound.first p hp x hx
    exact ⟨q, hfirst, hq.2.2⟩
  · rintro ⟨q, hfirst, rfl⟩
    exact h.facts.firstAt h.collected hfirst

theorem mem_followAt_iff (h : TablesOk g root s t) {p : ι} (hp : p ∈ s.nterms) (x : String) :
    x ∈ t.followAt (s.symbol p) ↔
      ∃ q, Follow (g.rules g.rhss root) p q ∧ s.symbol q = x := by
  constructor
  · intro hx
    obtain ⟨q, hq, hfollow⟩ := h.sound.follow p hp x hx
    exact ⟨q, hfollow, hq.2.2⟩
  · rintro ⟨q, hfollow, rfl⟩
    exact h.facts.followAt h.collected hfollow

end TablesOk

theorem rules_reached (g : Productions ι) (root : ι) : Reached (g.rules g.rhss root) root := by
  rintro ⟨p, u⟩ ⟨hp, rhs, hrhs, -⟩
  refine derives_of_below g.rhss root p hp (fun q hq => ?_) (isNonTerminal_of_mem_rhss hrhs)
  by_contra hne
  obtain ⟨rhs', hrhs'⟩ := List.exists_mem_of_ne_nil _ hne
  rw [isNonTerminal_of_mem_rhss hrhs'] at hq
  exact absurd hq (by simp)

/-! ## The look-ahead sets -/

/-- The terminal `q` selects the alternative `alt` of the production `p`. -/
def Selects (g : Productions ι) (R : Set (ContextFreeRule ι ι)) (p alt q : ι) : Prop :=
  First R (g.cfgString [alt]) q ∨ (Nullable R (g.cfgString [alt]) ∧ Follow R p q)

theorem getFirstOfRhs_singleton (alt : ι) :
    getFirstOfRhs g s.symbol t ∅ [alt] = getFirst g s.symbol t alt := by
  simp [getFirstOfRhs, getFirst]

theorem TablesOk.mem_getFirst_iff (h : TablesOk g root s t) {p : ι}
    (hl : Listed g root s [p]) (x : String) : x ∈ getFirst g s.symbol t p ↔
      ∃ q, First (g.rules g.rhss root) (g.cfgString [p]) q ∧ s.symbol q = x := by
  constructor
  · intro hx
    obtain ⟨q, hq, hfirst⟩ := h.sound.getFirst hl hx
    exact ⟨q, hfirst, hq.2.2⟩
  · rintro ⟨q, hfirst, rfl⟩
    obtain ⟨a, x, b, heq, -, hmem⟩ := h.facts.first_split h.collected hfirst
    obtain ⟨la, p', lb, heq', -, hp', -⟩ := cfgString_eq_append_cons heq
    cases la with
    | nil =>
      obtain ⟨rfl, -⟩ : p = p' ∧ [] = lb := by simpa using heq'
      rw [getFirst_eq hp']
      exact hmem
    | cons y la => simp at heq'

theorem TablesOk.mem_laheads_iff (h : TablesOk g root s t) {p alt : ι} (hp : p ∈ s.nterms)
    (halt : [alt] ∈ g.rhss p) (x : String) : x ∈ laheads g s t p [alt] ↔
      ∃ q, Selects g (g.rules g.rhss root) p alt q ∧ s.symbol q = x := by
  have hl := h.collected.listed hp halt
  unfold laheads Selects
  rw [Finset.mem_union, getFirstOfRhs_singleton, h.mem_getFirst_iff hl]
  by_cases hn : isNullable g s.symbol t [alt] = true
  · have hn' := (h.isNullable_iff hl).mp hn
    rw [if_pos hn, h.mem_followAt_iff hp]
    simp only [hn', true_and, or_and_right, exists_or]
  · have hn' : ¬ Nullable (g.rules g.rhss root) (g.cfgString [alt]) :=
      fun h' => hn ((h.isNullable_iff hl).mpr h')
    rw [if_neg hn]
    simp [hn']

theorem terminalBelow_of_selects {p alt q : ι} (hp : g.Below root p) (halt : [alt] ∈ g.rhss p)
    (h : Selects g (g.rules g.rhss root) p alt q) : TerminalBelow g root q := by
  have hr : ⟨p, g.cfgString [alt]⟩ ∈ g.rules g.rhss root := ⟨hp, _, halt, rfl⟩
  rcases h with h | ⟨-, h⟩
  · exact terminalBelow_of_first h fun q hq => terminalBelow_of_rule hr hq
  · exact terminalBelow_of_follow h

section

variable [DecidableEq ι]

theorem Collected.lookAheadTerminals_eq (hs : Collected g root s) (l : List String)
    (hl : ∀ x ∈ l, ∃ q, TerminalBelow g root q ∧ s.symbol q = x) :
    ∃ v, lookAheadTerminals g s l = some (v, []) ∧
      ∀ q, q ∈ v ↔ TerminalBelow g root q ∧ s.symbol q ∈ l := by
  induction l with
  | nil => exact ⟨∅, rfl, by simp⟩
  | cons x l ih =>
    obtain ⟨v, hv, hmem⟩ := ih fun y hy => hl y (by simp [hy])
    obtain ⟨q, hq, rfl⟩ := hl x (by simp)
    have hlook := hs.lookup_symbol hq.1 (not_isEpsilon_of_isTerminal hq.2)
    refine ⟨insert q v, by simp [lookAheadTerminals, hlook, hq.2, hv], fun q' => ?_⟩
    rw [Finset.mem_insert, hmem, List.mem_cons]
    constructor
    · rintro (rfl | ⟨hq', hl'⟩)
      · exact ⟨hq, .inl rfl⟩
      · exact ⟨hq', .inr hl'⟩
    · rintro ⟨hq', heq | hl'⟩
      · exact .inl (hs.terminal_inj hq' hq heq)
      · exact .inr ⟨hq', hl'⟩

theorem TablesOk.lookAheadTerminals_laheads (h : TablesOk g root s t) {p alt : ι}
    (hp : p ∈ s.nterms) (halt : [alt] ∈ g.rhss p) :
    ∃ v, lookAheadTerminals g s ((laheads g s t p [alt]).sort (· ≤ ·)) = some (v, []) ∧
      ∀ q, q ∈ v ↔ Selects g (g.rules g.rhss root) p alt q := by
  have hbelow := ((h.collected.mem_nterms p).mp hp).1
  have hsel : ∀ q, Selects g (g.rules g.rhss root) p alt q → TerminalBelow g root q :=
    fun q => terminalBelow_of_selects hbelow halt
  obtain ⟨v, hv, hmem⟩ := h.collected.lookAheadTerminals_eq
    ((laheads g s t p [alt]).sort (· ≤ ·)) fun x hx => by
      obtain ⟨q, hq, rfl⟩ := (h.mem_laheads_iff hp halt x).mp ((Finset.mem_sort _).mp hx)
      exact ⟨q, hsel q hq, rfl⟩
  refine ⟨v, hv, fun q => ?_⟩
  rw [hmem, Finset.mem_sort, h.mem_laheads_iff hp halt]
  constructor
  · rintro ⟨hq, q', hq', heq⟩
    rwa [← h.collected.terminal_inj (hsel q' hq') hq heq]
  · exact fun hq => ⟨hsel q hq, q, hq, rfl⟩

omit [DecidableEq ι] in
theorem isLookAhead_iff (k : Kind ι) :
    k.isLookAhead = true ↔ ∃ alt1 alt2 d, k = .lookAhead alt1 alt2 d := by
  cases k <;> simp [Kind.isLookAhead]

/-- The entry of a look-ahead production holds the terminals that select its
alternatives. -/
def EntryOk (g : Productions ι) (root : ι) (e : LookAheads ι) : Prop :=
  ∃ alt1 alt2 d, g.kind e.prod = .lookAhead alt1 alt2 d ∧
    (∀ q, q ∈ e.first ↔ Selects g (g.rules g.rhss root) e.prod alt1 q) ∧
    (∀ q, q ∈ e.second ↔ Selects g (g.rules g.rhss root) e.prod alt2 q)

theorem TablesOk.lookAheadLoop_eq (h : TablesOk g root s t) (l : List ι)
    (hl : ∀ p ∈ l, p ∈ s.nterms) :
    ∃ lahs, lookAheadLoop g s t l = some (lahs, []) ∧
      (∀ e ∈ lahs, e.prod ∈ l ∧ EntryOk g root e) ∧
      ∀ p ∈ l, (g.kind p).isLookAhead = true → ∃ e ∈ lahs, e.prod = p := by
  induction l with
  | nil => exact ⟨[], rfl, by simp⟩
  | cons p l ih =>
    obtain ⟨lahs, hlahs, hok, hall⟩ := ih fun q hq => hl q (by simp [hq])
    by_cases hlook : (g.kind p).isLookAhead = true
    · obtain ⟨alt1, alt2, d, hk⟩ := (isLookAhead_iff (g.kind p)).mp hlook
      have hp : p ∈ s.nterms := hl p (by simp)
      have halt1 : [alt1] ∈ g.rhss p := by simp [Productions.rhss, hk, Kind.rhss]
      have halt2 : [alt2] ∈ g.rhss p := by simp [Productions.rhss, hk, Kind.rhss]
      obtain ⟨v0, h0, hm0⟩ := h.lookAheadTerminals_laheads hp halt1
      obtain ⟨v1, h1, hm1⟩ := h.lookAheadTerminals_laheads hp halt2
      refine ⟨⟨p, v0, v1⟩ :: lahs, by simp [lookAheadLoop, hk, h0, h1, hlahs], ?_, ?_⟩
      · intro e he
        rcases List.mem_cons.mp he with rfl | he
        · exact ⟨by simp, alt1, alt2, d, hk, hm0, hm1⟩
        · exact ⟨by simp [(hok e he).1], (hok e he).2⟩
      · intro q hq hlq
        rcases List.mem_cons.mp hq with rfl | hq
        · exact ⟨⟨q, v0, v1⟩, by simp, rfl⟩
        · obtain ⟨e, he, rfl⟩ := hall q hq hlq
          exact ⟨e, by simp [he], rfl⟩
    · refine ⟨lahs, ?_, fun e he => ⟨by simp [(hok e he).1], (hok e he).2⟩, ?_⟩
      · rw [lookAheadLoop]
        split
        · rename_i hk
          simp [hk, Kind.isLookAhead] at hlook
        · exact hlahs
      · intro q hq hlq
        rcases List.mem_cons.mp hq with rfl | hq
        · exact absurd hlq hlook
        · exact hall q hq hlq

/-! ## The constructor -/

/-- What the constructor of `Grammar` leaves. -/
structure ComputedOk (g : Productions ι) (root : ι) (c : Computed ι) : Prop where
  tables : TablesOk g root c.grammar c.tables
  noErrors : c.lahErrors = []
  entry : ∀ e ∈ c.lookAheads, e.prod ∈ c.grammar.nterms ∧ EntryOk g root e
  hasEntry : ∀ p ∈ c.grammar.nterms, (g.kind p).isLookAhead = true →
    ∃ e ∈ c.lookAheads, e.prod = p

/-- Fuel that is enough for the grammar of `n` productions. -/
def grammarFuel (n : ℕ) : ℕ :=
  n + 2 + tablesBound n

theorem newGrammar_spec [Fintype ι] (g : Productions ι) (root : ι) {fuel : ℕ}
    (hf : grammarFuel (Fintype.card ι) ≤ fuel) :
    ∃ c, newGrammar g fuel root = some c ∧ ComputedOk g root c := by
  unfold grammarFuel at hf
  obtain ⟨s, hs, hnew⟩ := newGrammar_eq g root (show Fintype.card ι + 1 < fuel by omega)
  obtain ⟨t, ht, hsound, hfacts⟩ := tablesLoop_spec hs (show tablesBound (Fintype.card ι) < fuel by omega)
  have hok : TablesOk g root s t := ⟨hs, hsound, hfacts⟩
  obtain ⟨lahs, hlahs, hentry, hall⟩ := hok.lookAheadLoop_eq s.nterms fun _ h => h
  refine ⟨⟨s, t, lahs, []⟩, ?_, ⟨hok, rfl, hentry, hall⟩⟩
  rw [hnew, computeTables, ht]
  simp [hlahs]

/-- The tables of the grammar `c` are those of its context-free grammar: the least
sets that the rules for nullable productions, first and follow symbols define, and
what its derivations show. -/
structure ExactTables (g : Productions ι) (root : ι) (c : Computed ι) : Prop where
  nterms_iff : ∀ p, p ∈ c.grammar.nterms ↔
    g.Below root p ∧ (g.kind p).isNonTerminal = true
  symbol_inj : ∀ p q, g.Below root p → g.Below root q → (g.kind p).isEpsilon = false →
    (g.kind q).isEpsilon = false → c.grammar.symbol p = c.grammar.symbol q → p = q
  nullable_iff : ∀ p ∈ c.grammar.nterms, c.tables.nullableAt (c.grammar.symbol p) = true ↔
    Nullable (g.rules g.rhss root) [.nonterminal p]
  nullable_iff_derives : ∀ p ∈ c.grammar.nterms,
    c.tables.nullableAt (c.grammar.symbol p) = true ↔
      Derives (g.rules g.rhss root) [.nonterminal p] []
  first_iff : ∀ p ∈ c.grammar.nterms, ∀ x, x ∈ c.tables.firstAt (c.grammar.symbol p) ↔
    ∃ q, First (g.rules g.rhss root) [.nonterminal p] q ∧ c.grammar.symbol q = x
  first_iff_derives : ∀ p ∈ c.grammar.nterms, ∀ x,
    x ∈ c.tables.firstAt (c.grammar.symbol p) ↔
      ∃ q w, Derives (g.rules g.rhss root) [.nonterminal p] (.terminal q :: w) ∧
        c.grammar.symbol q = x
  follow_iff : ∀ p ∈ c.grammar.nterms, ∀ x, x ∈ c.tables.followAt (c.grammar.symbol p) ↔
    ∃ q, Follow (g.rules g.rhss root) p q ∧ c.grammar.symbol q = x
  follow_iff_derives : ∀ p ∈ c.grammar.nterms, ∀ x,
    x ∈ c.tables.followAt (c.grammar.symbol p) ↔
      ∃ q u v, Derives (g.rules g.rhss root) [.nonterminal root]
        (u ++ .nonterminal p :: .terminal q :: v) ∧ c.grammar.symbol q = x

omit [DecidableEq ι] in
theorem ComputedOk.exact {c : Computed ι} (h : ComputedOk g root c) : ExactTables g root c where
  nterms_iff := h.tables.collected.mem_nterms
  symbol_inj _ _ hp hq hnp hnq := h.tables.collected.symbol_inj hp hq hnp hnq
  nullable_iff _ hp := h.tables.nullableAt_iff hp
  nullable_iff_derives _ hp := by
    rw [h.tables.nullableAt_iff hp, nullable_iff_derives]
  first_iff _ hp := h.tables.mem_firstAt_iff hp
  first_iff_derives _ hp x := by
    rw [h.tables.mem_firstAt_iff hp]
    simp only [first_iff_derives, exists_and_right]
  follow_iff _ hp := h.tables.mem_followAt_iff hp
  follow_iff_derives _ hp x := by
    rw [h.tables.mem_followAt_iff hp]
    simp only [follow_iff_derives (rules_reached g root), exists_and_right]

/-- For every finite grammar the constructor returns, with exact tables. -/
theorem newGrammar_exact [Fintype ι] (g : Productions ι) (root : ι) :
    ∃ n, ∀ fuel, n ≤ fuel → ∃ c, newGrammar g fuel root = some c ∧ ExactTables g root c := by
  refine ⟨grammarFuel (Fintype.card ι), fun fuel hf => ?_⟩
  obtain ⟨c, hc, hok⟩ := newGrammar_spec g root hf
  exact ⟨c, hc, hok.exact⟩

end

end Hilti.Spicy
