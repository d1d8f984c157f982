import Hilti.Spicy.Exact

/-!
# Nullable productions

Whether a production can derive the empty token sequence is computed twice: by the
production objects, and in the tables of the grammar.  The tables are right.  A
nonterminal object reports that it is nullable as soon as it has any right-hand side,
which is right for those that are nullable, and for those without right-hand sides.
-/

namespace Hilti.Spicy

open Hilti.Lib

set_option autoImplicit false

variable {ι : Type}

/-- `Production::nullable`, `Epsilon::nullable` and `NonTerminal::nullable`; the
argument bounds the depth of the recursion. -/
def nullable (g : Productions ι) : ℕ → ι → Bool
  | 0, _ => false
  | fuel + 1, p =>
    if (g.kind p).isEpsilon then true
    else if (g.kind p).isTerminal then false
    else if (g.rhss p).length ≠ 0 then true
    else (g.rhss p).any fun r => r.all fun s => nullable g fuel s

/-- `Production::eodOk`, `Boolean::eodOk`, `Loop::eodOk` and `Switch::eodOk`. -/
def eodOk (g : Productions ι) (fuel : ℕ) (p : ι) : Bool :=
  match g.kind p with
  | .boolean _ _ => false
  | .switch _ _ => false
  | .loop _ ok => if ok then true else nullable g fuel p
  | _ => nullable g fuel p

/-- The productions whose `eodOk` is that of `Production`. -/
def Kind.inheritsEodOk : Kind ι → Bool
  | boolean _ _ => false
  | switch _ _ => false
  | loop _ _ => false
  | _ => true

/-- The production `p` can derive the empty token sequence. -/
def DerivesNothing (g : Productions ι) (root p : ι) : Prop :=
  Derives (g.rules g.rhss root) (g.cfgString [p]) []

/-- The production object reports whether it can derive the empty token sequence, as
do `eodOk` and the table of the grammar. -/
structure ReportsNullable (g : Productions ι) (root : ι) (c : Computed ι) (fuel : ℕ) (p : ι) :
    Prop where
  nullable_iff : nullable g fuel p = true ↔ DerivesNothing g root p
  nullable_eq : (g.kind p).isNonTerminal = true →
    nullable g fuel p = c.tables.nullableAt (c.grammar.symbol p)
  eodOk_iff : (g.kind p).inheritsEodOk = true → (eodOk g fuel p = true ↔ DerivesNothing g root p)

section

variable {g : Productions ι} {root p : ι}

theorem eodOk_eq_nullable (fuel : ℕ) (h : (g.kind p).inheritsEodOk = true) :
    eodOk g fuel p = nullable g fuel p := by
  unfold eodOk
  split
  · rename_i hk
    rw [hk] at h
    cases h
  · rename_i hk
    rw [hk] at h
    cases h
  · rename_i hk
    rw [hk] at h
    cases h
  · rfl

theorem nullable_of_nonTerminal (fuel : ℕ) (h : (g.kind p).isNonTerminal = true) :
    nullable g (fuel + 1) p = true ↔ g.rhss p ≠ [] := by
  obtain ⟨heps, hterm⟩ := (isNonTerminal_iff p).mp h
  unfold nullable
  rw [if_neg (by simp [heps]), if_neg (by simp [hterm])]
  cases hrhss : g.rhss p with
  | nil => simp
  | cons r rs => simp

theorem derivesNothing_of_epsilon (h : (g.kind p).isEpsilon = true) : DerivesNothing g root p := by
  unfold DerivesNothing
  rw [cfgString_cons_epsilon h]
  exact .refl

theorem not_derivesNothing_of_terminal (h : (g.kind p).isTerminal = true) :
    ¬ DerivesNothing g root p := by
  unfold DerivesNothing
  rw [cfgString_cons_terminal h, ← nullable_iff_derives]
  intro hnull
  cases hnull

theorem rhss_ne_nil_of_derivesNothing (h : (g.kind p).isNonTerminal = true)
    (hd : DerivesNothing g root p) : g.rhss p ≠ [] := by
  unfold DerivesNothing at hd
  rw [cfgString_cons_nonterminal h, ← nullable_iff_derives] at hd
  cases hd with
  | cons hr _ _ =>
    obtain ⟨-, rhs, hrhs, -⟩ := hr
    exact List.ne_nil_of_mem hrhs

theorem nullable_iff_derivesNothing (fuel : ℕ) :
    (nullable g (fuel + 1) p = true ↔ DerivesNothing g root p) ↔
      ((g.kind p).isNonTerminal = true → g.rhss p = [] ∨ DerivesNothing g root p) := by
  by_cases heps : (g.kind p).isEpsilon = true
  · have hnull : nullable g (fuel + 1) p = true := by
      unfold nullable
      rw [if_pos heps]
    exact ⟨fun _ _ => .inr (derivesNothing_of_epsilon heps),
      fun _ => ⟨fun _ => derivesNothing_of_epsilon heps, fun _ => hnull⟩⟩
  · by_cases hterm : (g.kind p).isTerminal = true
    · have hnull : ¬ nullable g (fuel + 1) p = true := by
        unfold nullable
        rw [if_neg heps, if_pos hterm]
        decide
      have hnot : ¬ (g.kind p).isNonTerminal = true := by
        intro h
        have hfalse := ((isNonTerminal_iff p).mp h).2
        rw [hterm] at hfalse
        cases hfalse
      exact ⟨fun _ h => absurd h hnot,
        fun _ => ⟨fun h => absurd h hnull, fun h => absurd h (not_derivesNothing_of_terminal hterm)⟩⟩
    · have hnon : (g.kind p).isNonTerminal = true := 
        (isNonTerminal_iff p).mpr ⟨Bool.eq_false_iff.mpr heps, Bool.eq_false_iff.mpr hterm⟩
      rw [nullable_of_nonTerminal fuel hnon]
      constructor
      · intro h _
        by_cases hnil : g.rhss p = []
        · exact .inl hnil
        · exact .inr (h.mp hnil)
      · intro h
        refine ⟨fun hne => (h hnon).resolve_left hne, rhss_ne_nil_of_derivesNothing hnon⟩

theorem ComputedOk.nullableAt_iff_derivesNothing {c : Computed ι} (h : ComputedOk g root c)
    (hp : g.Below root p) (hnon : (g.kind p).isNonTerminal = true) :
    c.tables.nullableAt (c.grammar.symbol p) = true ↔ DerivesNothing g root p := by
  have hmem := (h.tables.collected.mem_nterms p).mpr ⟨hp, hnon⟩
  unfold DerivesNothing
  rw [h.tables.nullableAt_iff hmem, nullable_iff_derives, cfgString_cons_nonterminal hnon]
  rfl

theorem ComputedOk.reports_iff {c : Computed ι} (h : ComputedOk g root c)
    (hp : g.Below root p) (fuel : ℕ) :
    ReportsNullable g root c (fuel + 1) p ↔
      ((g.kind p).isNonTerminal = true → g.rhss p = [] ∨ DerivesNothing g root p) := by
  rw [← nullable_iff_derivesNothing fuel]
  refine ⟨fun hr => hr.nullable_iff, fun hn => ⟨hn, fun hnon => ?_, fun hinherits => ?_⟩⟩
  · rw [Bool.eq_iff_iff, hn, h.nullableAt_iff_derivesNothing hp hnon]
  · rw [eodOk_eq_nullable _ hinherits]
    exact hn

end

/-- For every finite grammar: a production object reports whether it can derive the
empty token sequence exactly if it is no nonterminal, has no right-hand sides, or can
derive the empty token sequence.  The tables always do. -/
theorem reportsNullable_iff [DecidableEq ι] [Fintype ι] (g : Productions ι) (root : ι) :
    ∃ n, ∀ fuel, n ≤ fuel → ∃ c, newGrammar g fuel root = some c ∧
      ∀ p, g.Below root p → ∀ depth,
        (ReportsNullable g root c (depth + 1) p ↔
          ((g.kind p).isNonTerminal = true → g.rhss p = [] ∨ DerivesNothing g root p)) ∧
        ((g.kind p).isNonTerminal = true →
          (c.tables.nullableAt (c.grammar.symbol p) = true ↔ DerivesNothing g root p)) := by
  refine ⟨grammarFuel (Fintype.card ι), fun fuel hf => ?_⟩
  obtain ⟨c, hc, hok⟩ := newGrammar_spec g root hf
  exact ⟨c, hc, fun p hp depth =>
    ⟨hok.reports_iff hp depth, hok.nullableAt_iff_derivesNothing hp⟩⟩

/-- A sequence of one literal. -/
def literalGrammar : Productions (Fin 2) where
  node p := match p with
    | 0 => ⟨.sequence [1], "seq", "", "", ""⟩
    | 1 => ⟨.literal, "ctor:a", "", "b\"a\"", "bytes"⟩
  epsilon_iff := by decide

/-- The sequence reports that it is nullable and that running out of data is fine, while its entry in
the table is false. -/
theorem literalGrammar_reports :
    ((newGrammar literalGrammar 20 0).map fun c =>
      (nullable literalGrammar 5 0, eodOk literalGrammar 5 0,
        c.tables.nullableAt (c.grammar.symbol 0))) = some (true, true, false) ∧
    ¬ ∃ c, newGrammar literalGrammar 20 0 = some c ∧ ReportsNullable literalGrammar 0 c 5 0 := by
  have hrun : ((newGrammar literalGrammar 20 0).map fun c =>
      (nullable literalGrammar 5 0, eodOk literalGrammar 5 0,
        c.tables.nullableAt (c.grammar.symbol 0))) = some (true, true, false) := by
    decide
  refine ⟨hrun, ?_⟩
  rintro ⟨c, hc, hreports⟩
  rw [hc] at hrun
  have hpair := Option.some.inj hrun
  have htable : c.tables.nullableAt (c.grammar.symbol 0) = false := congrArg (·.2.2) hpair
  have hnull : nullable literalGrammar 5 0 = true := congrArg (·.1) hpair
  have heq := hreports.nullable_eq rfl
  rw [hnull, htable] at heq
  cases heq

end Hilti.Spicy
