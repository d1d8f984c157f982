import Hilti.Spicy.Exact

/-!
# Look-ahead sets and the language that the parser runs

The generated parser runs the body of a repetition any number of times, and it
takes the default of a switch when no case matches, while the right-hand sides from
which the look-ahead sets are computed announce one pass through each body and no
default.  The look-ahead sets are sound for what the parser runs exactly when that
makes no difference to the tokens that select an alternative.
-/

namespace Hilti.Spicy

open Hilti.Lib

set_option autoImplicit false

variable {ι : Type}

/-- The alternatives of a production at run time. -/
def Productions.runAlternatives (g : Productions ι) (p : ι) : List (List ι) :=
  match g.kind p with
  | .counter body => [[], [body, p]]
  | .byteBlock body => [[], [body, p]]
  | .whileLoop body => [[], [body, p]]
  | .loop body _ => [[], [body, p]]
  | .switch cases default => cases.map (fun c => [c]) ++ default.toList.map fun d => [d]
  | k => k.rhss

/-- The rules that the parser runs from `root`. -/
def Productions.runRules (g : Productions ι) (root : ι) : Set (ContextFreeRule ι ι) :=
  g.rules g.runAlternatives root

/-- For every token sequence that the parser accepts from `root`: where a look-ahead
production is expanded to an alternative, the next token is in the set that was
computed for it. -/
def LookAheadSound (g : Productions ι) (root : ι) (c : Computed ι) : Prop :=
  ∀ p alt1 alt2 d, g.kind p = .lookAhead alt1 alt2 d → ∀ t,
    (NextToken (g.runRules root) root p (g.cfgString [alt1]) t →
      ∃ e ∈ c.lookAheads, e.prod = p ∧ t ∈ e.first) ∧
    (NextToken (g.runRules root) root p (g.cfgString [alt2]) t →
      ∃ e ∈ c.lookAheads, e.prod = p ∧ t ∈ e.second)

/-- Skipping or repeating a body and taking a default adds nothing: a token that
selects an alternative under the rules of the token sequences that the parser
accepts also selects it when every body is passed once and no default is taken. -/
def OnePassSuffices (g : Productions ι) (root : ι) : Prop :=
  ∀ p alt1 alt2 d, g.kind p = .lookAhead alt1 alt2 d → ∀ alt, alt = alt1 ∨ alt = alt2 →
    ⟨p, g.cfgString [alt]⟩ ∈ Used (g.runRules root) root →
    ∀ t, Selects g (Used (g.runRules root) root) p alt t →
      g.Below root p ∧ Selects g (g.rules g.rhss root) p alt t

section

variable {g : Productions ι} {root : ι} {c : Computed ι}

theorem nextToken_iff_selects (p alt t : ι) :
    NextToken (g.runRules root) root p (g.cfgString [alt]) t ↔
      ⟨p, g.cfgString [alt]⟩ ∈ Used (g.runRules root) root ∧
        Selects g (Used (g.runRules root) root) p alt t :=
  nextToken_iff root p _ t

theorem ComputedOk.mem_lookAheads_iff (h : ComputedOk g root c) {p alt1 alt2 : ι} {d : ℕ}
    (hk : g.kind p = .lookAhead alt1 alt2 d) (t : ι) :
    ((∃ e ∈ c.lookAheads, e.prod = p ∧ t ∈ e.first) ↔
      g.Below root p ∧ Selects g (g.rules g.rhss root) p alt1 t) ∧
    ((∃ e ∈ c.lookAheads, e.prod = p ∧ t ∈ e.second) ↔
      g.Below root p ∧ Selects g (g.rules g.rhss root) p alt2 t) := by
  have hentry : ∀ e ∈ c.lookAheads, e.prod = p → g.Below root p ∧
      (∀ q, q ∈ e.first ↔ Selects g (g.rules g.rhss root) p alt1 q) ∧
      (∀ q, q ∈ e.second ↔ Selects g (g.rules g.rhss root) p alt2 q) := by
    rintro e he rfl
    obtain ⟨hmem, a1, a2, d', hk', hfirst, hsecond⟩ := h.entry e he
    rw [hk] at hk'
    obtain ⟨rfl, rfl, -⟩ : alt1 = a1 ∧ alt2 = a2 ∧ d = d' := by simpa using hk'
    exact ⟨((h.tables.collected.mem_nterms _).mp hmem).1, hfirst, hsecond⟩
  have hex : g.Below root p → ∃ e ∈ c.lookAheads, e.prod = p := by
    intro hp
    have hn : (g.kind p).isNonTerminal = true := by
      rw [hk]
      rfl
    exact h.hasEntry p ((h.tables.collected.mem_nterms p).mpr ⟨hp, hn⟩)
      ((isLookAhead_iff _).mpr ⟨alt1, alt2, d, hk⟩)
  constructor
  · constructor
    · rintro ⟨e, he, hep, ht⟩
      obtain ⟨hp, hfirst, -⟩ := hentry e he hep
      exact ⟨hp, (hfirst t).mp ht⟩
    · rintro ⟨hp, hsel⟩
      obtain ⟨e, he, hep⟩ := hex hp
      exact ⟨e, he, hep, ((hentry e he hep).2.1 t).mpr hsel⟩
  · constructor
    · rintro ⟨e, he, hep, ht⟩
      obtain ⟨hp, -, hsecond⟩ := hentry e he hep
      exact ⟨hp, (hsecond t).mp ht⟩
    · rintro ⟨hp, hsel⟩
      obtain ⟨e, he, hep⟩ := hex hp
      exact ⟨e, he, hep, ((hentry e he hep).2.2 t).mpr hsel⟩

theorem ComputedOk.lookAheadSound_iff (h : ComputedOk g root c) :
    LookAheadSound g root c ↔ OnePassSuffices g root := by
  constructor
  · rintro hsound p alt1 alt2 d hk alt (rfl | rfl) hused t hsel
    · have hnext := (nextToken_iff_selects p alt t).mpr ⟨hused, hsel⟩
      exact ((h.mem_lookAheads_iff hk t).1).mp ((hsound p _ _ d hk t).1 hnext)
    · have hnext := (nextToken_iff_selects p alt t).mpr ⟨hused, hsel⟩
      exact ((h.mem_lookAheads_iff hk t).2).mp ((hsound p _ _ d hk t).2 hnext)
  · intro hone p alt1 alt2 d hk t
    constructor
    · intro hnext
      obtain ⟨hused, hsel⟩ := (nextToken_iff_selects p alt1 t).mp hnext
      exact ((h.mem_lookAheads_iff hk t).1).mpr
        (hone p alt1 alt2 d hk alt1 (.inl rfl) hused t hsel)
    · intro hnext
      obtain ⟨hused, hsel⟩ := (nextToken_iff_selects p alt2 t).mp hnext
      exact ((h.mem_lookAheads_iff hk t).2).mpr
        (hone p alt1 alt2 d hk alt2 (.inr rfl) hused t hsel)

end

/-- The look-ahead sets of a grammar are sound for what the parser runs exactly
when one pass through every body and no default give all selecting tokens. -/
theorem lookAheads_sound_iff [DecidableEq ι] [Fintype ι] (g : Productions ι) (root : ι) :
    ∃ n, ∀ fuel, n ≤ fuel → ∃ c, newGrammar g fuel root = some c ∧
      (LookAheadSound g root c ↔ OnePassSuffices g root) := by
  refine ⟨grammarFuel (Fintype.card ι), fun fuel hf => ?_⟩
  obtain ⟨c, hc, hok⟩ := newGrammar_spec g root hf
  exact ⟨c, hc, hok.lookAheadSound_iff⟩

theorem onePassSuffices_of_announced (g : Productions ι) (root : ι)
    (h : ∀ p, Lib.Below (fun p => (g.runAlternatives p).flatten) root p →
      g.runAlternatives p = g.rhss p) : OnePassSuffices g root := by
  have hbelow : ∀ p, Lib.Below (fun p => (g.runAlternatives p).flatten) root p →
      g.Below root p := by
    intro p hp
    induction hp with
    | refl => exact .refl
    | tail hq hc ih => exact ih.child (by simpa [h _ hq, Productions.rhss, Kind.children] using hc)
  have hsub : Used (g.runRules root) root ⊆ g.rules g.rhss root := by
    rintro ⟨p, u⟩ ⟨⟨hp, rhs, hrhs, heq⟩, -⟩
    exact ⟨hbelow p hp, rhs, h p hp ▸ hrhs, heq⟩
  intro p alt1 alt2 d _ alt _ hused t hsel
  refine ⟨(hsub hused).1, ?_⟩
  rcases hsel with hfirst | ⟨hnull, hfollow⟩
  · exact .inl (hfirst.mono hsub)
  · exact .inr ⟨hnull.mono hsub, hfollow.mono hsub⟩

/-! ## A counter before a literal -/

/-- A choice between `a` repeated a number of times and then `b`, and `c`. -/
def counterGrammar : Productions (Fin 6) where
  node p := match p with
    | 0 => ⟨.lookAhead 1 2 0, "switch", "", "", ""⟩
    | 1 => ⟨.sequence [3, 4], "case1", "", "", ""⟩
    | 2 => ⟨.literal, "ctor:c", "", "b\"c\"", "bytes"⟩
    | 3 => ⟨.counter 5, "list:as", "", "", ""⟩
    | 4 => ⟨.literal, "ctor:b", "", "b\"b\"", "bytes"⟩
    | 5 => ⟨.literal, "ctor:a", "", "b\"a\"", "bytes"⟩
  epsilon_iff := by decide

theorem counterGrammar_checks : ∃ c, newGrammar counterGrammar 20 0 = some c ∧
    check counterGrammar "" "" c = "" ∧ ∀ e ∈ c.lookAheads, e.prod = 0 → 4 ∉ e.first := by
  have h : ((newGrammar counterGrammar 20 0).map fun c =>
      decide (check counterGrammar "" "" c = "" ∧
        ∀ e ∈ c.lookAheads, e.prod = 0 → 4 ∉ e.first)) = some true := by
    decide +kernel
  obtain ⟨c, hc, hdec⟩ := Option.map_eq_some_iff.mp h
  exact ⟨c, hc, of_decide_eq_true hdec⟩

theorem counterGrammar_nextToken :
    NextToken (counterGrammar.runRules 0) 0 0 (counterGrammar.cfgString [1]) 4 := by
  have hbelow1 : Lib.Below (fun p => (counterGrammar.runAlternatives p).flatten) 0 1 :=
    .single (by decide)
  have hbelow3 : Lib.Below (fun p => (counterGrammar.runAlternatives p).flatten) 0 3 :=
    .tail hbelow1 (by decide)
  have hrule0 : ⟨0, counterGrammar.cfgString [1]⟩ ∈ counterGrammar.runRules 0 :=
    ⟨.refl, [1], by decide, rfl⟩
  have hrule1 : ⟨1, [.nonterminal 3, .terminal 4]⟩ ∈ counterGrammar.runRules 0 :=
    ⟨hbelow1, [3, 4], by decide, rfl⟩
  have hrule3 : ⟨3, []⟩ ∈ counterGrammar.runRules 0 := ⟨hbelow3, [], by decide, rfl⟩
  refine ⟨hrule0, [], [], .refl, ⟨[], .refl⟩, [], ?_⟩
  exact (derives_rule hrule1 [] []).trans (derives_rule hrule3 [] [.terminal 4])

/-- The grammar passes the check, and its first alternative can start with a token
that is not in the look-ahead set computed for it. -/
theorem lookAheads_miss_token_after_counter : ∃ c, newGrammar counterGrammar 20 0 = some c ∧
    check counterGrammar "" "" c = "" ∧ ¬ LookAheadSound counterGrammar 0 c := by
  obtain ⟨c, hc, hcheck, hmiss⟩ := counterGrammar_checks
  refine ⟨c, hc, hcheck, fun hsound => ?_⟩
  obtain ⟨e, he, hp, ht⟩ := (hsound 0 1 2 0 rfl 4).1 counterGrammar_nextToken
  exact hmiss e he hp ht

end Hilti.Spicy
