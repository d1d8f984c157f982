import Hilti.Justrx.Frames
import Hilti.Justrx.Removing
import Hilti.Justrx.Standard

/-!
# Building regular patterns

The NFA for a regular pattern without assertions matches the words of the pattern's language, over the
characters that ranges can have; unless it is anchored, other characters may come before them.
-/

namespace Hilti.Justrx

open Hilti.Lib

set_option autoImplicit false

/-- The fragment has been built on top of a context, and matches the words of a language. -/
structure Built (neg : Bool) (ctx₀ : NfaContext) (L : Language ℕ) (nfa : Fragment)
    (ctx : NfaContext) : Prop where
  wellFormed : ctx.WellFormed
  grown : Grown neg ctx₀ ctx
  held : Held ctx₀.states.length nfa
  initial_lt : nfa.initial < ctx.states.length
  final_lt : nfa.final < ctx.states.length
  language_eq : ctx.language nfa = wordSpans Input.chars L

section

variable {neg : Bool} {ctx₀ ctx ctx' : NfaContext} {nfa nfa1 nfa2 : Fragment} {L L₁ L₂ : Language ℕ}
  {S : Set ℕ} {id : ℕ}

theorem Built.denotes (h : Built neg ctx₀ L nfa ctx) :
    Denotes ctx {s | ctx₀.states.length ≤ s ∧ s < ctx.states.length} nfa
      (wordSpans Input.chars L) where
  closed s hs t x i j hst := by
    refine ⟨?_, h.wellFormed.lt_of_steps hst⟩
    obtain ⟨trans, htrans, rfl, -⟩ := hst
    exact h.grown.new s hs.1 trans htrans
  bounded _ hs := hs.2
  initial_mem := ⟨h.held.initial, h.initial_lt⟩
  final_mem := ⟨h.held.final, h.final_lt⟩
  language_eq := h.language_eq

theorem makes_built {m : Make Fragment} (hm : Keeps neg ctx₀ m (Held ctx₀.states.length))
    (hg : Grown neg ctx₀ ctx) (h : Makes m ctx fun nfa ctx' => ctx'.WellFormed ∧
      ∃ R, Denotes ctx' R nfa (wordSpans Input.chars L)) : Makes m ctx (Built neg ctx₀ L) := by
  apply (hm.makes hg h).imp
  intro nfa ctx' hall
  obtain ⟨hg', hheld, hw, R, hR⟩ := hall
  exact ⟨hw, hg', hheld, hR.bounded _ hR.initial_mem, hR.bounded _ hR.final_mem, hR.language_eq⟩

theorem Held.mono {n m : ℕ} (h : Held m nfa) (hle : n ≤ m) : Held n nfa :=
  ⟨hle.trans h.initial, hle.trans h.final, h.tagged⟩

theorem Built.disjoint (h₁ : Built neg ctx₀ L₁ nfa1 ctx) (ctx' : NfaContext) :
    Disjoint {s | ctx₀.states.length ≤ s ∧ s < ctx.states.length}
      {s | ctx.states.length ≤ s ∧ s < ctx'.states.length} :=
  h₁.denotes.disjoint fun _ hs => hs.1

theorem Built.concat (h₁ : Built neg ctx₀ L₁ nfa1 ctx) (h₂ : Built neg ctx L₂ nfa2 ctx') :
    Makes (nfaConcat nfa1 nfa2 none) ctx' (Built neg ctx₀ (L₁ * L₂)) := by
  have hg := h₁.grown.trans h₂.grown
  have hold := h₁.denotes.extend (h₂.grown.widens h₁.wellFormed) (Set.empty_disjoint _)
  apply makes_built (keeps_nfaConcat h₁.held (h₂.held.mono h₁.grown.length_le) none) hg
  apply (makes_nfaConcat h₂.wellFormed hold h₂.denotes (h₁.disjoint _)).imp
  intro nfa ctx'' hmade
  obtain ⟨hw, -, hden⟩ := hmade
  rw [← wordSpans_mul] at hden
  exact ⟨hw, _, hden⟩

theorem Built.concat_later (h₁ : Built neg ctx₀ L₁ nfa1 ctx) (h₂ : Built neg ctx L₂ nfa2 ctx') :
    Makes (nfaConcat nfa2 nfa1 none) ctx' (Built neg ctx₀ (L₂ * L₁)) := by
  have hg := h₁.grown.trans h₂.grown
  have hold := h₁.denotes.extend (h₂.grown.widens h₁.wellFormed) (Set.empty_disjoint _)
  apply makes_built (keeps_nfaConcat (h₂.held.mono h₁.grown.length_le) h₁.held none) hg
  apply (makes_nfaConcat h₂.wellFormed h₂.denotes hold (h₁.disjoint _).symm).imp
  intro nfa ctx'' hmade
  obtain ⟨hw, -, hden⟩ := hmade
  rw [← wordSpans_mul] at hden
  exact ⟨hw, _, hden⟩

theorem Built.alternative (h₁ : Built neg ctx₀ L₁ nfa1 ctx) (h₂ : Built neg ctx L₂ nfa2 ctx') :
    Makes (nfaAlternative nfa1 nfa2) ctx' (Built neg ctx₀ (L₁ + L₂)) := by
  have hg := h₁.grown.trans h₂.grown
  have hold := h₁.denotes.extend (h₂.grown.widens h₁.wellFormed) (Set.empty_disjoint _)
  apply makes_built (keeps_nfaAlternative h₁.held (h₂.held.mono h₁.grown.length_le)) hg
  apply (makes_nfaAlternative h₂.wellFormed hold h₂.denotes (h₁.disjoint _)).imp
  intro nfa ctx'' hmade
  obtain ⟨hw, -, hden⟩ := hmade
  rw [← wordSpans_add] at hden
  exact ⟨hw, _, hden⟩

theorem makes_empty (hg : Grown neg ctx₀ ctx) (hw : ctx.WellFormed) :
    Makes nfaEmpty ctx (Built neg ctx₀ 1) := by
  apply makes_built keeps_nfaEmpty hg
  apply (makes_nfaEmpty hw).imp
  intro nfa ctx' hmade
  obtain ⟨hw', -, hden⟩ := hmade
  rw [← wordSpans_one] at hden
  exact ⟨hw', _, hden⟩

/-! ## Classes -/

theorem spans_eq_wordSpans {p : Ccl} (hp : p.Neat neg) (hranges : p.ranges = some p.rangeList)
    (hchars : ∀ c, c ∈ p.chars ↔ c ∈ S) : p.spans = wordSpans Input.chars (letters S) := by
  funext x i j
  apply propext
  rw [spans_iff hranges, wordSpans_letters, hp.assertions_eq]
  constructor
  · intro h
    obtain ⟨-, hj, cp, hcp, hmem⟩ := h
    exact ⟨hj, cp, hcp, (hchars cp).mp hmem⟩
  · intro h
    obtain ⟨hj, cp, hcp, hmem⟩ := h
    exact ⟨Finset.empty_subset _, hj, cp, hcp, (hchars cp).mpr hmem⟩

theorem NfaContext.ccl_eq {p : Ccl} (h : ctx.ccls.ccls[id]? = some p) : ctx.ccl id = p := by
  rw [NfaContext.ccl, List.getD_eq_getElem?_getD, h, Option.getD_some]

theorem makes_addClass (hw : ctx.WellFormed) {a b : ℕ} (ha : a < ctx.states.length)
    (hb : b < ctx.states.length) {p : Ccl} (hp : ctx.ccls.ccls[id]? = some p)
    (tags : Option (List Tag)) :
    Makes (nfaStateAddTrans a b tags id) ctx fun _ ctx' => ctx'.WellFormed ∧
      ctx'.states.length = ctx.states.length ∧ ∀ s t x i j, ctx'.steps s t x i j ↔
        ctx.steps s t x i j ∨ (s = a ∧ t = b ∧ p.spans x i j) := by
  refine makes_nfaStateModify ⟨⟨hw.epsilon, fun s t ht => ?_, fun s t ht => ?_⟩,
    NfaContext.edit_length a _, fun s t x i j => ?_⟩
  · by_cases hs : s = a
    · rw [hs, NfaContext.edit_state_self ha] at ht
      cases List.mem_append.mp ht with
      | inl ht => exact hw.ccls a t ht
      | inr ht =>
        rw [List.mem_singleton.mp ht]
        exact (List.getElem?_eq_some_iff.mp hp).1
    · rw [NfaContext.edit_state_ne hs] at ht
      exact hw.ccls s t ht
  · rw [NfaContext.edit_length]
    by_cases hs : s = a
    · rw [hs, NfaContext.edit_state_self ha] at ht
      cases List.mem_append.mp ht with
      | inl ht => exact hw.succs a t ht
      | inr ht => exact List.mem_singleton.mp ht ▸ hb
    · rw [NfaContext.edit_state_ne hs] at ht
      exact hw.succs s t ht
  · unfold NfaContext.steps
    by_cases hs : s = a
    · rw [hs, NfaContext.edit_state_self ha]
      simp only [List.mem_append, List.mem_singleton, or_and_right, exists_or, exists_eq_left,
        true_and]
      apply or_congr_right
      change b = t ∧ (ctx.ccl id).spans x i j ↔ _
      rw [NfaContext.ccl_eq hp, eq_comm]
    · rw [NfaContext.edit_state_ne hs]
      simp only [hs, false_and, or_false]
      rfl

theorem makes_fromCcl (hg : Grown neg ctx₀ ctx) (hw : ctx.WellFormed) (hid : ctx.ccls.Has id S) :
    Makes (nfaFromCcl id) ctx (Built neg ctx₀ (letters S)) := by
  apply makes_built (keeps_nfaFromCcl id) hg
  refine Makes.bind (makes_empty hg.refl hw) fun nfa1 ctx₁ h₁ => ?_
  refine Makes.bind (makes_empty h₁.grown.refl h₁.wellFormed) fun nfa2 ctx₂ h₂ => ?_
  have hgrown := h₁.grown.trans h₂.grown
  obtain ⟨p, hp, hranges, hchars⟩ := hid.mono hgrown.ccls
  have hneat := hgrown.neat.ccls p (List.mem_of_getElem? hp)
  have hd₁ := h₁.denotes.extend (h₂.grown.widens h₁.wellFormed) (Set.empty_disjoint _)
  have hd₂ := h₂.denotes
  have hdisj := h₁.disjoint ctx₂
  rw [wordSpans_one] at hd₁ hd₂
  change Makes (nfaStateAddTrans nfa1.final nfa2.initial nfa2.initialTags id >>= fun _ =>
    pure { nfa1 with final := nfa2.final }) ctx₂ _
  refine Makes.bind (makes_addClass h₂.wellFormed (hd₁.bounded _ hd₁.final_mem) h₂.initial_lt hp
    nfa2.initialTags) fun _ ctx₃ h₃ => ?_
  obtain ⟨hw₃, hlen₃, hsteps⟩ := h₃
  have hfirst : ∀ s ∈ {s | ctx₁.states.length ≤ s ∧ s < ctx₂.states.length}, ∀ t x i j,
      ctx₃.steps s t x i j ↔ ctx₂.steps s t x i j := by
    intro s hs t x i j
    rw [hsteps]
    apply or_iff_left
    intro hcon
    exact Set.disjoint_right.mp hdisj hs (hcon.1 ▸ hd₁.final_mem)
  refine Makes.pure ⟨hw₃, {s | ctx.states.length ≤ s ∧ s < ctx₁.states.length} ∪
    {s | ctx₁.states.length ≤ s ∧ s < ctx₂.states.length}, ?_, ?_, .inl hd₁.initial_mem,
    .inr hd₂.final_mem, ?_⟩
  · intro s hs t x i j hst
    cases hs with
    | inl hs =>
      cases (hsteps s t x i j).mp hst with
      | inl hst => exact .inl (hd₁.closed s hs t x i j hst)
      | inr hst => exact .inr (hst.2.1 ▸ hd₂.initial_mem)
    | inr hs => exact .inr (hd₂.closed s hs t x i j ((hfirst s hs t x i j).mp hst))
  · intro s hs
    rw [hlen₃]
    exact hs.elim (hd₁.bounded s) (hd₂.bounded s)
  · have hpath := path_concat (e := p.spans) hd₁.closed hd₂.closed hdisj
      hd₂.initial_mem (fun s _ => hsteps s) hfirst hd₁.initial_mem hd₁.final_mem hd₂.final_mem
    have h1 : path ctx₂.steps nfa1.initial nfa1.final = 1 := hd₁.language_eq
    have h2 : path ctx₂.steps nfa2.initial nfa2.final = 1 := hd₂.language_eq
    rw [h1, h2, one_mul, mul_one] at hpath
    exact hpath.trans (spans_eq_wordSpans hneat hranges hchars)

theorem makes_onCcls (hg : Grown neg ctx₀ ctx) (hw : ctx.WellFormed)
    {f : CclGroup → Option (CclGroup × ℕ)}
    (hf : ∃ r, f ctx.ccls = some r ∧ Adds neg ctx.ccls S r) :
    Makes (onCcls f) ctx fun id ctx' =>
      ctx'.WellFormed ∧ Grown neg ctx₀ ctx' ∧ ctx'.ccls.Has id S := by
  obtain ⟨r, hr, hadds⟩ := hf
  refine ⟨r.2, { ctx with ccls := r.1 }, by rw [onCcls, hr, Option.map_some],
    ⟨hadds.neat.epsilon, fun s t ht => ?_, hw.succs⟩, ?_, hadds.has⟩
  · exact (hw.ccls s t ht).trans_le hadds.ccls.length_le
  · exact ⟨hg.length_le, hg.old, hg.new, hadds.neat, hg.ccls.trans hadds.ccls, hg.dontAnchor_eq,
      hg.accepts, hg.tagged, hg.maxAccept_eq⟩

theorem makes_fromAdded (hg : Grown neg ctx₀ ctx) (hw : ctx.WellFormed)
    {f : CclGroup → Option (CclGroup × ℕ)}
    (hf : ∃ r, f ctx.ccls = some r ∧ Adds neg ctx.ccls S r) :
    Makes (onCcls f >>= nfaFromCcl) ctx (Built neg ctx₀ (letters S)) := by
  refine Makes.bind (makes_onCcls hg hw hf) fun id ctx' h => ?_
  obtain ⟨hw', hg', hid⟩ := h
  exact makes_fromCcl hg' hw' hid

/-! ## Captures and iteration -/

theorem Denotes.retag {R : Set ℕ} {M : Spans Input} (h : Denotes ctx R nfa M)
    (tags : Option (List Tag)) : Denotes ctx R { nfa with initialTags := tags } M :=
  ⟨h.closed, h.bounded, h.initial_mem, h.final_mem, h.language_eq⟩

theorem Built.setCapture (h : Built neg ctx₀ L nfa ctx) (group : ℕ) :
    Makes (nfaSetCapture nfa group) ctx (Built neg ctx₀ L) := by
  apply makes_built (keeps_nfaSetCapture h.held group) h.grown
  refine Makes.bind Makes.get fun _ _ hget => ?_
  obtain ⟨rfl, rfl⟩ := hget
  split
  · exact Makes.pure ⟨h.wellFormed, _, h.denotes⟩
  · set ctx₁ : NfaContext := { ctx with maxTag := max ctx.maxTag (group * 2 + 1) } with hctx₁
    have hw₁ : ctx₁.WellFormed :=
      ⟨h.wellFormed.epsilon, h.wellFormed.ccls, h.wellFormed.succs⟩
    have hd₁ : Denotes ctx₁ {s | ctx₀.states.length ≤ s ∧ s < ctx.states.length} nfa
        (wordSpans Input.chars L) :=
      ⟨h.denotes.closed, h.denotes.bounded, h.denotes.initial_mem, h.denotes.final_mem,
        h.denotes.language_eq⟩
    refine Makes.bind (Q := fun _ ctx' => ctx₁ = ctx') ⟨_, _, rfl, rfl⟩ fun _ _ hset => ?_
    subst hset
    refine Makes.bind (makes_nfaEmpty hw₁) fun eps ctx₂ h₂ => ?_
    obtain ⟨hw₂, hx, heps⟩ := h₂
    have hd₂ := hd₁.extend hx (Set.empty_disjoint _)
    have hnew : ∀ s ∈ ({ctx₁.states.length} : Set ℕ), ctx₁.states.length ≤ s := fun _ hs => hs.ge
    have hdisj := hd₁.disjoint hnew
    apply (makes_nfaConcat hw₂ (hd₂.retag _) (heps.retag _) hdisj).imp
    intro nfa' ctx₃ h₃
    obtain ⟨hw₃, -, hden⟩ := h₃
    rw [mul_one] at hden
    exact ⟨hw₃, _, hden⟩

theorem wordSpans_forward : (wordSpans Input.chars L).Forward := by
  intro x i j h
  obtain ⟨w, -, rfl, -⟩ := h
  exact Nat.le_add_right i _

theorem Built.iterate (h : Built neg ctx₀ L nfa ctx) {min max : ℤ} (h0 : 0 ≤ min)
    (hmax : max = -1 ∨ min ≤ max) (hexact : IterationExact (wordSpans Input.chars L) min max)
    (hL : wordSpans Input.chars L₁ = repetitions (wordSpans Input.chars L) min max) :
    Makes (nfaIterate nfa min max) ctx fun r ctx' =>
      ∃ nfa', r = some nfa' ∧ Built neg ctx₀ L₁ nfa' ctx' := by
  have hmakes := makes_nfaIterate h.wellFormed nfa h.initial_lt h.final_lt min max h0 hmax
  rw [h.language_eq, (iterated_eq_iff wordSpans_forward h0 hmax).mpr hexact, ← hL] at hmakes
  apply ((keeps_nfaIterate h.held min max).makes h.grown hmakes).imp
  intro r ctx' hall
  obtain ⟨hg', hheld, hw', hr⟩ := hall
  cases r with
  | none => exact absurd hr (Option.some_ne_none _)
  | some nfa' =>
    obtain ⟨R, L', heq, hden⟩ := hr
    cases heq
    exact ⟨nfa', rfl, hw', hg', hheld nfa' rfl, hden.bounded _ hden.initial_mem,
      hden.bounded _ hden.final_mem, hden.language_eq⟩

/-! ## Patterns -/

theorem charsIn_self (cp : UInt32) : charsIn [(cp, cp)] = {cp.toNat} := by
  ext c
  simp only [charsIn, List.mem_singleton, exists_eq_left, Set.mem_ofPred_eq, Set.mem_singleton_iff]
  omega

theorem CclElem.Regular.nonempty {elem : CclElem} (h : elem.Regular) : elem.chars.Nonempty := by
  have hfirst : ∀ (first last : UInt32) (rs : List (UInt32 × UInt32)), first.toNat ≤ last.toNat →
      (charsIn ((first, last) :: rs)).Nonempty := fun first last rs hle =>
    ⟨first.toNat, (first, last), List.mem_cons_self, le_rfl, hle⟩
  cases elem with
  | range first last => exact hfirst first last [] h.1
  | codepoint cp => exact hfirst cp cp [] le_rfl
  | dynccl std =>
    cases std with
    | epsilon => exact absurd rfl h.1
    | any => exact absurd rfl h.2
    | lower => exact hfirst 97 122 [] (by decide)
    | upper => exact hfirst 65 90 [] (by decide)
    | word => exact hfirst 97 122 _ (by decide)
    | digit => exact hfirst 48 57 [] (by decide)
    | blank => exact hfirst 32 32 _ (by decide)

theorem RegularElems.elemsChars_nonempty {elems : List CclElem} (h : RegularElems neg elems) :
    (elemsChars elems).Nonempty := by
  obtain ⟨elem, rest, rfl⟩ := List.exists_cons_of_ne_nil h.nonempty
  obtain ⟨c, hc⟩ := (h.regular elem List.mem_cons_self).nonempty
  exact ⟨c, elem, List.mem_cons_self, hc⟩

theorem makes_buildPattern (pattern : Pattern) : ∀ {ctx : NfaContext}, Grown neg ctx ctx →
    ctx.WellFormed → pattern.AssertionFree → pattern.Regular neg →
    Makes (buildPattern pattern) ctx (Built neg ctx (pattern.language below)) := by
  induction pattern with
  | empty => exact fun hg hw _ _ => makes_empty hg hw
  | codepoint cp =>
    intro ctx hg hw _ hreg
    rw [Pattern.language, ← charsIn_self]
    exact makes_fromAdded hg hw ⟨_, rfl, fromRange_spec hg.neat _ _ le_rfl hreg⟩
  | any =>
    intro ctx hg hw _ _
    exact makes_fromAdded hg hw (fromStdCcl_spec hg.neat .any (by decide))
  | ccl elems =>
    intro ctx hg hw _ hreg
    exact makes_fromAdded hg hw (parseCcl_spec hg.neat hreg)
  | negatedCcl elems =>
    intro ctx hg hw _ hreg
    obtain ⟨rfl, helems⟩ := hreg
    refine Makes.bind (makes_onCcls hg hw (parseCcl_spec hg.neat helems)) fun id ctx₁ h₁ => ?_
    obtain ⟨hw₁, hg₁, hid⟩ := h₁
    exact makes_fromAdded hg₁ hw₁ (negate_spec hg₁.neat hid helems.elemsChars_nonempty)
  | group pattern ih =>
    intro ctx hg hw hfree hreg
    set ctx₁ : NfaContext := { ctx with maxCapture := ctx.maxCapture + 1 } with hctx₁
    have hgrown : Grown neg ctx₁ ctx₁ := .self hg.neat hg.tagged
    refine Makes.bind (Q := fun _ ctx' => ctx₁ = ctx') ⟨_, _, rfl, rfl⟩ fun _ _ hset => ?_
    subst hset
    refine Makes.bind Makes.get fun _ _ hget => ?_
    obtain ⟨rfl, rfl⟩ := hget
    refine Makes.bind (ih hgrown ⟨hw.epsilon, hw.ccls, hw.succs⟩ hfree hreg) fun nfa ctx₂ h₂ => ?_
    apply (h₂.setCapture ctx₁.maxCapture).imp
    intro nfa' ctx₃ h₃
    have hg₃ := h₃.grown
    exact ⟨h₃.wellFormed, ⟨hg₃.length_le, hg₃.old, hg₃.new, hg₃.neat, hg₃.ccls, hg₃.dontAnchor_eq,
      hg₃.accepts, hg₃.tagged, hg₃.maxAccept_eq⟩, h₃.held, h₃.initial_lt, h₃.final_lt, h₃.language_eq⟩
  | iterate pattern min max ih =>
    intro ctx hg hw hfree hreg
    obtain ⟨hreg, h0, hmax, hexact⟩ := hreg
    refine Makes.bind (ih hg hw hfree hreg) fun nfa ctx₁ h₁ => ?_
    rw [if_neg (by omega)]
    refine Makes.bind (h₁.iterate h0 hmax hexact (wordSpans_iterate pattern min max))
      fun r ctx₂ h₂ => ?_
    obtain ⟨nfa', rfl, h₂⟩ := h₂
    exact Makes.pure h₂
  | concat pattern1 pattern2 ih1 ih2 =>
    intro ctx hg hw hfree hreg
    refine Makes.bind (ih1 hg hw hfree.1 hreg.1) fun nfa1 ctx₁ h₁ => ?_
    refine Makes.bind (ih2 h₁.grown.refl h₁.wellFormed hfree.2 hreg.2) fun nfa2 ctx₂ h₂ => ?_
    exact h₁.concat h₂
  | asserting pattern1 assertions pattern2 => exact fun _ _ hfree _ => hfree.elim
  | alternative pattern1 pattern2 ih1 ih2 =>
    intro ctx hg hw hfree hreg
    refine Makes.bind (ih1 hg hw hfree.1 hreg.1) fun nfa1 ctx₁ h₁ => ?_
    refine Makes.bind (ih2 h₁.grown.refl h₁.wellFormed hfree.2 hreg.2) fun nfa2 ctx₂ h₂ => ?_
    exact h₁.alternative h₂

theorem iterationExact_star (M : Spans Input) : IterationExact M 0 (-1) := by
  unfold IterationExact
  rw [if_pos rfl]
  exact .inl (by decide)

theorem wordSpans_kstar : wordSpans Input.chars (KStar.kstar L) =
    repetitions (wordSpans Input.chars L) 0 (-1) := by
  rw [Language.kstar_eq_iSup_pow, repetitions_unbounded le_rfl, Int.toNat_zero, atLeast_zero,
    wordSpans_iSup]
  exact iSup_congr fun k => wordSpans_pow k

/-- What the NFA for a pattern matches: words of the pattern's language, behind other characters if
the pattern is not anchored. -/
noncomputable def Pattern.searched (dontAnchor : Bool) (pattern : Pattern) : Language ℕ :=
  if dontAnchor then KStar.kstar (letters below) * pattern.language below
  else pattern.language below

/-- What precedes the accept in `buildRegexp`. -/
def buildSearched (pattern : Pattern) : Make Fragment := do
  let nfa ← buildPattern pattern
  let nfa ← nfaSetCapture nfa 0
  if (← get).dontAnchor then do
    let any ← nfaFromCcl (← onCcls fun group => group.fromStdCcl .any)
    let all ← nfaIterate any 0 (-1)
    all.elim (fun _ => none) fun all => nfaConcat all nfa none
  else pure nfa

theorem buildRegexp_eq (pattern : Pattern) : buildRegexp pattern = (do
    let nfa ← buildSearched pattern
    nfaSetAccept nfa ((← get).maxAccept + 1)) := by
  unfold buildRegexp buildSearched
  rw [bind_assoc]
  apply bind_congr
  intro nfa
  rw [bind_assoc]
  apply bind_congr
  intro nfa'
  rw [bind_assoc]
  apply bind_congr
  intro ctx
  congr 1
  split
  · apply bind_congr
    intro ccl
    apply bind_congr
    intro any
    apply bind_congr
    intro all
    cases all <;> rfl
  · rfl

theorem makes_buildSearched {pattern : Pattern} (hg : Grown neg ctx ctx) (hw : ctx.WellFormed)
    (hfree : pattern.AssertionFree) (hreg : pattern.Regular neg) :
    Makes (buildSearched pattern) ctx (Built neg ctx (pattern.searched ctx.dontAnchor)) := by
  refine Makes.bind (makes_buildPattern pattern hg hw hfree hreg) fun nfa ctx₁ h₁ => ?_
  refine Makes.bind (h₁.setCapture 0) fun nfa' ctx₂ h₂ => ?_
  refine Makes.bind Makes.get fun _ _ hget => ?_
  obtain ⟨rfl, rfl⟩ := hget
  rw [h₂.grown.dontAnchor_eq]
  unfold Pattern.searched
  cases ctx.dontAnchor with
  | false => exact Makes.pure h₂
  | true =>
    -- the fragment for any characters is built after the one it is put in front of
    refine Makes.bind (makes_onCcls h₂.grown.refl h₂.wellFormed
      (fromStdCcl_spec h₂.grown.neat .any (by decide))) fun id ctx₃ h₃ => ?_
    obtain ⟨hw₃, hg₃, hid⟩ := h₃
    refine Makes.bind (makes_fromCcl hg₃ hw₃ hid) fun any ctx₄ h₄ => ?_
    refine Makes.bind (h₄.iterate le_rfl (.inl rfl) (iterationExact_star _) wordSpans_kstar)
      fun r ctx₅ h₅ => ?_
    obtain ⟨all, rfl, h₅⟩ := h₅
    exact h₂.concat_later h₅

end

/-! ## Accepting -/

def NfaAccept.Plain (acc : NfaAccept) : Prop :=
  0 < acc.aid ∧ acc.assertions = ∅

/-- A state of an NFA without assertions. -/
structure NfaState.Plain (state : NfaState) : Prop where
  trans : ∀ t ∈ state.trans, TagsSound t.tags
  accepts : ∀ acc ∈ state.accepts, acc.Plain

/-- Nothing in the context has assertions. -/
structure NfaContext.Plain (neg : Bool) (ctx : NfaContext) : Prop where
  wellFormed : ctx.WellFormed
  neat : ctx.ccls.Neat neg
  states : ∀ s, (ctx.state s).Plain

theorem plain_nfaContextCreate (neg dontAnchor : Bool) (nmatch : ℤ) :
    (nfaContextCreate dontAnchor nmatch).Plain neg where
  wellFormed := wellFormed_nfaContextCreate dontAnchor nmatch
  neat := CclGroup.neat_create
  states s := by
    rw [NfaContext.state_of_le (Nat.zero_le s)]
    exact ⟨fun _ ht => (nomatch ht), fun _ hacc => (nomatch hacc)⟩

/-- The context after `nfa_set_accept`. -/
def NfaContext.accepting (ctx : NfaContext) (final aid : ℕ) : NfaContext :=
  { ctx.edit final fun s => { s with accepts := s.accepts ++ [⟨∅, aid, none⟩] } with
    maxAccept := max ctx.maxAccept aid }

section

variable {neg : Bool} {ctx ctx₁ : NfaContext} {nfa : Fragment} {L : Language ℕ}

theorem nfaSetAccept_eq (nfa : Fragment) (aid : ℕ) (ctx : NfaContext) :
    nfaSetAccept nfa aid ctx = some (nfa, ctx.accepting nfa.final aid) := rfl

theorem NfaContext.accepting_trans (final aid s : ℕ) :
    ((ctx.accepting final aid).state s).trans = (ctx.state s).trans := by
  change ((ctx.edit final _).state s).trans = _
  by_cases hs : s = final
  · by_cases hlt : final < ctx.states.length
    · rw [hs, NfaContext.edit_state_self hlt]
    · have hle := Nat.not_lt.mp hlt
      rw [hs, NfaContext.state_of_le hle, NfaContext.state_of_le (by rwa [NfaContext.edit_length])]
  · rw [NfaContext.edit_state_ne hs]

theorem NfaContext.accepting_accepts {final : ℕ} (hlt : final < ctx.states.length) (aid s : ℕ) :
    ((ctx.accepting final aid).state s).accepts =
      if s = final then (ctx.state s).accepts ++ [⟨∅, aid, none⟩] else (ctx.state s).accepts := by
  change ((ctx.edit final _).state s).accepts = _
  by_cases hs : s = final
  · rw [if_pos hs, hs, NfaContext.edit_state_self hlt]
  · rw [if_neg hs, NfaContext.edit_state_ne hs]

theorem NfaContext.accepting_length (final aid : ℕ) :
    (ctx.accepting final aid).states.length = ctx.states.length :=
  NfaContext.edit_length final _

theorem NfaContext.accepting_steps (final aid : ℕ) :
    (ctx.accepting final aid).steps = ctx.steps := by
  funext s t x i j
  unfold NfaContext.steps
  rw [NfaContext.accepting_trans]
  rfl

theorem Built.accepts_old (h : Built neg ctx L nfa ctx₁) (hw : ctx.WellFormed) {s : ℕ}
    (hs : s < ctx.states.length) (k aid : ℕ) (x : Input) :
    (ctx₁.accepting nfa.final k).Accepts s aid x ↔ ctx.Accepts s aid x := by
  have hclosed : Closed ctx.steps {s | s < ctx.states.length} := fun _ _ _ _ _ _ hst =>
    hw.lt_of_steps hst
  have hsteps : ∀ s ∈ {s | s < ctx.states.length}, ∀ t x i j,
      ctx₁.steps s t x i j ↔ ctx.steps s t x i j := fun s hs =>
    (h.grown.widens hw).steps_iff s hs (Set.notMem_empty s)
  unfold NfaContext.Accepts
  rw [NfaContext.accepting_steps]
  apply exists_congr
  intro t
  rw [path_congr hclosed hsteps hs t]
  apply and_congr_right
  intro hpath
  have ht : t < ctx.states.length := hclosed.path_mem hs hpath
  rw [NfaContext.accepting_accepts h.final_lt, if_neg (ht.trans_le h.held.final).ne,
    h.grown.old t ht]

theorem Built.accepts_new (h : Built neg ctx L nfa ctx₁) (k aid : ℕ) (x : Input) :
    (ctx₁.accepting nfa.final k).Accepts nfa.initial aid x ↔ aid = k ∧ x.chars ∈ L := by
  rw [← wordSpans_whole (x := x), ← h.language_eq]
  unfold NfaContext.Accepts
  rw [NfaContext.accepting_steps]
  constructor
  · intro hacc
    obtain ⟨t, hpath, acc, hmem, haid, -⟩ := hacc
    have ht : ctx.states.length ≤ t :=
      (h.denotes.closed.path_mem h.denotes.initial_mem hpath).1
    rw [NfaContext.accepting_accepts h.final_lt, h.grown.accepts t ht] at hmem
    split at hmem
    · rename_i heq
      rw [List.mem_singleton.mp hmem] at haid
      rw [heq] at hpath
      exact ⟨haid.symm, hpath⟩
    · cases hmem
  · intro hacc
    obtain ⟨rfl, hpath⟩ := hacc
    refine ⟨nfa.final, hpath, ⟨∅, aid, none⟩, ?_, rfl, Finset.empty_subset _⟩
    rw [NfaContext.accepting_accepts h.final_lt, if_pos rfl]
    exact List.mem_append_right _ (List.mem_singleton.mpr rfl)

theorem Built.accepting_plain (h : Built neg ctx L nfa ctx₁) (hctx : ctx.Plain neg) {k : ℕ}
    (hk : 0 < k) : (ctx₁.accepting nfa.final k).Plain neg where
  wellFormed := by
    refine ⟨h.wellFormed.epsilon, fun s t ht => ?_, fun s t ht => ?_⟩
    · exact h.wellFormed.ccls s t (NfaContext.accepting_trans _ _ s ▸ ht)
    · rw [NfaContext.accepting_length]
      exact h.wellFormed.succs s t (NfaContext.accepting_trans _ _ s ▸ ht)
  neat := h.grown.neat
  states s := by
    have htagged := h.grown.tagged s
    refine ⟨fun t ht => htagged t (NfaContext.accepting_trans _ _ s ▸ ht), fun acc hacc => ?_⟩
    have hold : ∀ acc ∈ (ctx₁.state s).accepts, acc.Plain := by
      intro acc hacc
      by_cases hs : s < ctx.states.length
      · rw [h.grown.old s hs] at hacc
        exact (hctx.states s).accepts acc hacc
      · rw [h.grown.accepts s (Nat.not_lt.mp hs)] at hacc
        cases hacc
    rw [NfaContext.accepting_accepts h.final_lt] at hacc
    split at hacc
    · cases List.mem_append.mp hacc with
      | inl hacc => exact hold acc hacc
      | inr hacc => exact List.mem_singleton.mp hacc ▸ ⟨hk, rfl⟩
    · exact hold acc hacc

end

/-! ## Removing epsilon transitions -/

/-- What a search through an NFA without assertions has. -/
structure Follow.Plain (neg : Bool) (f : Follow) : Prop where
  neat : f.ccls.Neat neg
  ntrans : ∀ t ∈ f.ntrans, TagsSound t.tags
  accepts : ∀ acc ∈ f.accepts, acc.Plain
  calls : ∀ c ∈ f.calls, c.2 = ∅

section

variable {neg : Bool} {states : ℕ → NfaState} {self fuel : ℕ} {f : Follow}
  {tags : Option (List Tag)}

theorem CclGroup.Neat.getD_assertions {group : CclGroup} (h : group.Neat neg) (id : ℕ) :
    (group.ccls.getD id ⟨∅, none⟩).assertions = ∅ := by
  rw [List.getD_eq_getElem?_getD]
  cases hget : group.ccls[id]? with
  | none => rfl
  | some p => exact (h.ccls p (List.mem_of_getElem? hget)).assertions_eq

theorem addAssertions_neat {group : CclGroup} (h : group.Neat neg) {id : ℕ}
    (heps : ¬(group.ccls.getD id ⟨∅, none⟩).isEpsilon = true) {c : CclGroup × ℕ}
    (hc : group.addAssertions id ∅ = some c) : c.1.Neat neg := by
  obtain ⟨p, hp, rfl⟩ := Option.map_eq_some_iff.mp hc
  rw [List.getD_eq_getElem?_getD, hp, Option.getD_some] at heps
  rw [Finset.union_empty]
  refine (addTo_spec h (h.ccls p (List.mem_of_getElem? hp)) ?_).neat
  rw [Ccl.isEpsilon, Option.isNone_iff_eq_none] at heps
  obtain ⟨rs, hrs⟩ := Option.ne_none_iff_exists'.mp heps
  rw [Ccl.rangeList, hrs, Option.getD_some]

theorem Follow.Plain.followTrans (h : f.Plain neg) (htags : TagsSound tags)
    {follow : ℕ → Option (List Tag) → Finset Assertion → Follow →
      Option (Follow × Option (List Tag))}
    (hfollow : ∀ id tags f r, f.Plain neg → TagsSound tags → follow id tags ∅ f = some r →
      r.1.Plain neg) {trans : NfaTransition} (htrans : TagsSound trans.tags)
    {r : Follow × Option (List Tag)} (hr : Justrx.followTrans follow ∅ (f, tags) trans = some r) :
    r.1.Plain neg ∧ TagsSound r.2 := by
  have hjoin := tagsSound_tagsJoin htags htrans
  unfold Justrx.followTrans at hr
  dsimp only at hr
  split at hr
  · rw [h.neat.getD_assertions, Finset.union_empty] at hr
    obtain ⟨s, hs, rfl⟩ := Option.map_eq_some_iff.mp hr
    exact ⟨hfollow _ _ f s h hjoin hs, htags⟩
  · rename_i heps
    obtain ⟨c, hc, rfl⟩ := Option.map_eq_some_iff.mp hr
    refine ⟨⟨addAssertions_neat h.neat heps hc, fun t ht => ?_, h.accepts, h.calls⟩, hjoin⟩
    cases List.mem_append.mp ht with
    | inl ht => exact h.ntrans t ht
    | inr ht => exact List.mem_singleton.mp ht ▸ hjoin

theorem Follow.Plain.followTranses
    {follow : ℕ → Option (List Tag) → Finset Assertion → Follow →
      Option (Follow × Option (List Tag))}
    (hfollow : ∀ id tags f r, f.Plain neg → TagsSound tags → follow id tags ∅ f = some r →
      r.1.Plain neg) {l : List NfaTransition} : (∀ t ∈ l, TagsSound t.tags) →
    ∀ {s r : Follow × Option (List Tag)}, s.1.Plain neg → TagsSound s.2 →
      l.foldlM (Justrx.followTrans follow ∅) s = some r → r.1.Plain neg ∧ TagsSound r.2 := by
  induction l with
  | nil =>
    intro _ s r h htags hr
    cases hr
    exact ⟨h, htags⟩
  | cons trans l ih =>
    intro hl s r h htags hr
    obtain ⟨htrans, hl⟩ := List.forall_mem_cons.mp hl
    rw [List.foldlM_cons] at hr
    obtain ⟨s', hs', hr⟩ := Option.bind_eq_some_iff.mp hr
    obtain ⟨h', htags'⟩ := h.followTrans htags hfollow htrans hs'
    exact ih hl h' htags' hr

theorem Follow.Plain.enter (h : f.Plain neg) (self : ℕ) {state : NfaState} (hstate : state.Plain)
    (id : ℕ) (tags : Option (List Tag)) :
    ({ f with calls := f.calls ++ [(id, ∅)] }.enter self id state tags ∅).Plain neg := by
  refine ⟨h.neat, h.ntrans, fun acc hacc => ?_, fun c hc => ?_⟩
  · change acc ∈ ite _ _ _ at hacc
    split at hacc
    · exact h.accepts acc hacc
    · cases List.mem_append.mp hacc with
      | inl hacc => exact h.accepts acc hacc
      | inr hacc =>
        obtain ⟨acc', hacc', rfl⟩ := List.mem_map.mp hacc
        obtain ⟨haid, hassert⟩ := hstate.accepts acc' hacc'
        exact ⟨haid, by rw [hassert, Finset.union_empty]⟩
  · cases List.mem_append.mp hc with
    | inl hc => exact h.calls c hc
    | inr hc => rw [List.mem_singleton.mp hc]

theorem followEpsilons_plain (hstates : ∀ s, (states s).Plain) (fuel : ℕ) :
    ∀ id tags f r, f.Plain neg → TagsSound tags →
      followEpsilons states self fuel id tags ∅ f = some r → r.1.Plain neg ∧ TagsSound r.2 := by
  induction fuel with
  | zero => exact fun _ _ _ _ _ _ hr => (nomatch hr)
  | succ fuel ih =>
    intro id tags f r h htags hr
    have henter := h.enter self (hstates id) id tags
    unfold followEpsilons at hr
    dsimp only at hr
    split at hr
    · cases hr
      refine ⟨⟨h.neat, h.ntrans, h.accepts, fun c hc => ?_⟩, htags⟩
      cases List.mem_append.mp hc with
      | inl hc => exact h.calls c hc
      | inr hc => rw [List.mem_singleton.mp hc]
    · exact Follow.Plain.followTranses (fun id tags f r h ht hr => (ih id tags f r h ht hr).1)
        (hstates id).trans henter htags hr

theorem noneLost_of_empty {calls : Calls} (h : ∀ c ∈ calls, c.2 = ∅) : NoneLost calls := by
  intro c _ B hB
  have hempty : B = ∅ := h _ (mem_of_entered hB)
  rw [hempty]
  exact Finset.empty_subset _

/-- What the removal from a state of an NFA without assertions has. -/
structure Removing.Plain (neg : Bool) (s : Removing) : Prop where
  neat : s.ccls.Neat neg
  ntrans : ∀ t ∈ s.ntrans, TagsSound t.tags
  accepts : ∀ acc ∈ s.accepts, acc.Plain
  logs : ∀ calls ∈ s.logs, NoneLost calls
  tagged : TagsSound s.initialTags

structure Removal.Plain (neg : Bool) (r : Removal) : Prop where
  neat : r.ctx.ccls.Neat neg
  states : ∀ s, (r.ctx.state s).Plain
  logs : ∀ calls ∈ r.logs, NoneLost calls
  tagged : TagsSound r.initialTags

variable {ctx : NfaContext} {initial : ℕ}

theorem Removing.Plain.removeTrans (hctx : ∀ s, (ctx.state s).Plain) {s s' : Removing}
    (h : s.Plain neg) {trans : NfaTransition} (htrans : TagsSound trans.tags)
    (hr : Justrx.removeTrans ctx initial self s trans = some s') : s'.Plain neg := by
  unfold Justrx.removeTrans at hr
  dsimp only at hr
  split at hr
  · rw [h.neat.getD_assertions] at hr
    obtain ⟨r, hfollow, rfl⟩ := Option.map_eq_some_iff.mp hr
    have hstart : (⟨s.ccls, [], s.ntrans, s.accepts, []⟩ : Follow).Plain neg :=
      ⟨h.neat, h.ntrans, h.accepts, fun _ hc => (nomatch hc)⟩
    obtain ⟨hplain, htags⟩ := followEpsilons_plain hctx _ _ _ _ r hstart htrans hfollow
    refine ⟨hplain.neat, hplain.ntrans, hplain.accepts, fun calls hc => ?_, ?_⟩
    · cases List.mem_append.mp hc with
      | inl hc => exact h.logs calls hc
      | inr hc => exact List.mem_singleton.mp hc ▸ noneLost_of_empty hplain.calls
    · dsimp only
      split
      · exact tagsSound_tagsJoin h.tagged htags
      · exact h.tagged
  · cases hr
    refine ⟨h.neat, fun t ht => ?_, h.accepts, h.logs, h.tagged⟩
    cases List.mem_append.mp ht with
    | inl ht => exact h.ntrans t ht
    | inr ht => exact List.mem_singleton.mp ht ▸ htrans

theorem Removing.Plain.removeTranses (hctx : ∀ s, (ctx.state s).Plain) {l : List NfaTransition} :
    (∀ t ∈ l, TagsSound t.tags) → ∀ {s s' : Removing}, s.Plain neg →
      l.foldlM (Justrx.removeTrans ctx initial self) s = some s' → s'.Plain neg := by
  induction l with
  | nil =>
    intro _ s s' h hr
    cases hr
    exact h
  | cons trans l ih =>
    intro hl s s' h hr
    obtain ⟨htrans, hl⟩ := List.forall_mem_cons.mp hl
    rw [List.foldlM_cons] at hr
    obtain ⟨s₁, hs₁, hr⟩ := Option.bind_eq_some_iff.mp hr
    exact ih hl (h.removeTrans hctx htrans hs₁) hr

theorem Removal.Plain.removeState {r r' : Removal} (h : r.Plain neg)
    (hr : Justrx.removeState initial r self = some r') : r'.Plain neg := by
  obtain ⟨s, hs, rfl⟩ := Option.map_eq_some_iff.mp hr
  have hstart : (⟨r.ctx.ccls, [], (r.ctx.state self).accepts, r.initialTags, r.logs⟩ :
      Removing).Plain neg := ⟨h.neat, fun _ ht => (nomatch ht), (h.states self).accepts, h.logs, h.tagged⟩
  have hplain := Removing.Plain.removeTranses h.states (h.states self).trans hstart hs
  refine ⟨hplain.neat, fun q => ?_, hplain.logs, hplain.tagged⟩
  change ((r.ctx.edit self fun _ => ⟨s.accepts, s.ntrans⟩).state q).Plain
  by_cases hq : q = self
  · by_cases hlt : self < r.ctx.states.length
    · rw [hq, NfaContext.edit_state_self hlt]
      exact ⟨hplain.ntrans, hplain.accepts⟩
    · have hle := Nat.not_lt.mp hlt
      rw [hq, NfaContext.state_of_le (by rwa [NfaContext.edit_length])]
      exact ⟨fun _ ht => (nomatch ht), fun _ ha => (nomatch ha)⟩
  · rw [NfaContext.edit_state_ne hq]
    exact h.states q

theorem Removal.Plain.removeStates {l : List ℕ} : ∀ {r r' : Removal}, r.Plain neg →
    l.foldlM (Justrx.removeState initial) r = some r' → r'.Plain neg := by
  induction l with
  | nil =>
    intro r r' h hr
    cases hr
    exact h
  | cons self l ih =>
    intro r r' h hr
    rw [List.foldlM_cons] at hr
    obtain ⟨r₁, hr₁, hr⟩ := Option.bind_eq_some_iff.mp hr
    exact ih (h.removeState hr₁) hr

theorem removeStates_kept {l : List ℕ} : ∀ {r r' : Removal},
    l.foldlM (Justrx.removeState initial) r = some r' →
      r'.ctx.maxAccept = r.ctx.maxAccept ∧ r'.ctx.dontAnchor = r.ctx.dontAnchor := by
  induction l with
  | nil =>
    intro r r' hr
    cases hr
    exact ⟨rfl, rfl⟩
  | cons self l ih =>
    intro r r' hr
    rw [List.foldlM_cons] at hr
    obtain ⟨r₁, hr₁, hr⟩ := Option.bind_eq_some_iff.mp hr
    obtain ⟨s, -, rfl⟩ := Option.map_eq_some_iff.mp hr₁
    obtain ⟨hmax, hanchor⟩ := ih hr
    exact ⟨hmax, hanchor⟩

/-- The fragment is one of the context. -/
structure Fragment.In (nfa : Fragment) (ctx : NfaContext) : Prop where
  initial_lt : nfa.initial < ctx.states.length
  final_lt : nfa.final < ctx.states.length
  tagged : TagsSound nfa.initialTags

/-- The second context accepts as much as the first from the states of the first. -/
structure NfaContext.Same (ctx ctx' : NfaContext) : Prop where
  length_le : ctx.states.length ≤ ctx'.states.length
  dontAnchor_eq : ctx'.dontAnchor = ctx.dontAnchor
  accepts_iff : ∀ s < ctx.states.length, ∀ aid x, ctx'.Accepts s aid x ↔ ctx.Accepts s aid x

variable {ctx' ctx'' : NfaContext} {nfa : Fragment}

theorem NfaContext.Same.trans (h : ctx.Same ctx') (h' : ctx'.Same ctx'') : ctx.Same ctx'' where
  length_le := h.length_le.trans h'.length_le
  dontAnchor_eq := h'.dontAnchor_eq.trans h.dontAnchor_eq
  accepts_iff s hs aid x :=
    (h'.accepts_iff s (hs.trans_le h.length_le) aid x).trans (h.accepts_iff s hs aid x)

theorem Fragment.In.mono (h : nfa.In ctx) (hle : ctx.states.length ≤ ctx'.states.length) :
    nfa.In ctx' :=
  ⟨h.initial_lt.trans_le hle, h.final_lt.trans_le hle, h.tagged⟩

def NfaContext.EpsilonFree (ctx : NfaContext) : Prop :=
  ∀ s, ∀ t ∈ (ctx.state s).trans, ¬(ctx.ccl t.ccl).isEpsilon = true

theorem nfaRemoveEpsilons_same (h : ctx.Plain neg) (hnfa : nfa.In ctx) :
    ∃ r, nfaRemoveEpsilons nfa ctx = some r ∧ r.ctx.Plain neg ∧ ctx.Same r.ctx ∧
      r.ctx.maxAccept = ctx.maxAccept ∧ Fragment.In { nfa with initialTags := r.initialTags } r.ctx ∧
      r.ctx.EpsilonFree := by
  obtain ⟨r, hr, hremoved⟩ := nfaRemoveEpsilons_spec h.wellFormed nfa
  have hstart : (⟨ctx, nfa.initialTags, []⟩ : Removal).Plain neg :=
    ⟨h.neat, h.states, fun _ hc => (nomatch hc), hnfa.tagged⟩
  have hplain : r.Plain neg := hstart.removeStates hr
  obtain ⟨hmax, hanchor⟩ := removeStates_kept hr
  have hlen := hremoved.length_eq
  refine ⟨r, hr, ⟨hremoved.wellFormed, hplain.neat, hplain.states⟩,
    ⟨hlen.ge, hanchor, fun s _ aid x => hremoved.accepts_iff hplain.logs s aid x⟩, hmax,
    ⟨hlen.symm ▸ hnfa.initial_lt, hlen.symm ▸ hnfa.final_lt, hplain.tagged⟩, fun s t ht => ?_⟩
  by_cases hlt : s < ctx.states.length
  · exact hremoved.none s (List.mem_range.mpr hlt) t ht
  · rw [NfaContext.state_of_le (hlen ▸ Nat.not_lt.mp hlt)] at ht
    cases ht

/-! ## Compiling a pattern beside others -/

/-- A context with an NFA for a language that has been built beside others. -/
structure Placed (neg : Bool) (L : Language ℕ) (ctx : NfaContext) (nfa : Fragment)
    (ctx' : NfaContext) : Prop where
  plain : ctx'.Plain neg
  same : ctx.Same ctx'
  maxAccept_eq : ctx'.maxAccept = ctx.maxAccept + 1
  nfaIn : nfa.In ctx'
  accepts_iff : ∀ aid x, ctx'.Accepts nfa.initial aid x ↔ aid = ctx.maxAccept + 1 ∧ x.chars ∈ L
  epsilonFree : ctx'.EpsilonFree

theorem buildRegexp_spec {pattern : Pattern} (h : ctx.Plain neg) (hfree : pattern.AssertionFree)
    (hreg : pattern.Regular neg) : ∃ nfa ctx₁ r, buildRegexp pattern ctx = some (nfa, ctx₁) ∧
      nfaRemoveEpsilons nfa ctx₁ = some r ∧ Placed neg (pattern.searched ctx.dontAnchor) ctx
        { nfa with initialTags := r.initialTags } r.ctx := by
  obtain ⟨nfa, ctx₁, hrun, hb⟩ := makes_buildSearched
    (.self h.neat fun s => (h.states s).trans) h.wellFormed hfree hreg
  set ctx₂ : NfaContext := ctx₁.accepting nfa.final (ctx.maxAccept + 1) with hctx₂
  have hbuild : buildRegexp pattern ctx = some (nfa, ctx₂) := by
    rw [buildRegexp_eq]
    change (buildSearched pattern ctx).bind (fun r => nfaSetAccept r.1 (r.2.maxAccept + 1) r.2) = _
    rw [hrun, Option.bind_some, nfaSetAccept_eq, hb.grown.maxAccept_eq]
  have hlen : ctx₂.states.length = ctx₁.states.length := NfaContext.accepting_length _ _
  have hin : nfa.In ctx₂ := ⟨hlen ▸ hb.initial_lt, hlen ▸ hb.final_lt, hb.held.tagged⟩
  obtain ⟨r, hremove, hplain, hsame, hmax, hin', hnone⟩ :=
    nfaRemoveEpsilons_same (hb.accepting_plain h (Nat.succ_pos _)) hin
  have hsame₂ : ctx.Same ctx₂ :=
    ⟨hlen ▸ hb.grown.length_le, hb.grown.dontAnchor_eq, fun s hlt aid x =>
      hb.accepts_old h.wellFormed hlt _ aid x⟩
  refine ⟨nfa, ctx₂, r, hbuild, hremove, hplain, hsame₂.trans hsame, ?_, hin', fun aid x => ?_,
    hnone⟩
  · rw [hmax]
    change max ctx₁.maxAccept _ = _
    rw [hb.grown.maxAccept_eq]
    exact max_eq_right (Nat.le_succ _)
  · rw [← hb.accepts_new (ctx.maxAccept + 1) aid x]
    exact hsame.accepts_iff nfa.initial hin.initial_lt aid x

end

/-! ## The automaton -/

/-- The NFA of a context. -/
def NfaContext.toNfa (ctx : NfaContext) (initial : ℕ) (initialTags : Option (List Tag)) : Nfa :=
  ⟨ctx.ccls.ccls, ctx.states, initial, initialTags⟩

/-- What a DFA can be made from: an NFA for the words of a language. -/
structure Nfa.Decides (nfa : Nfa) (L : Language ℕ) : Prop where
  tagged : nfa.WellTagged
  positive : nfa.PositiveIds
  orderly : nfa.Orderly
  free : nfa.AssertionFree
  accepts : ∀ q, ∀ acc ∈ (nfa.state q).accepts, acc.assertions = ∅
  language : nfa.toNFA.accepts = L

section

variable {neg : Bool} {ctx : NfaContext} {L : Language ℕ} {initial : ℕ}
  {initialTags : Option (List Tag)}

theorem offers_iff_gives (hnone : ctx.EpsilonFree) {holds : Finset Assertion} {s : ℕ} {o : Offer} :
    Offers ctx holds s o ↔ Gives ctx.ccls (ctx.state s) holds o := by
  refine ⟨fun h => ?_, Offers.own⟩
  cases h.head with
  | inl h => exact h
  | inr h =>
    obtain ⟨t, ⟨trans, htrans, -, heps, -⟩, -⟩ := h
    exact absurd heps (hnone s trans htrans)

theorem recognizes_iff_marked (hnone : ctx.EpsilonFree) (hplain : ctx.Plain neg)
    (holds : ℕ → Finset Assertion) (aid : ℕ) (word : List ℕ) : ∀ i s,
    Recognizes ctx aid holds i word s ↔
      ∃ q ∈ (ctx.toNfa initial initialTags).toNFA.evalFrom {s} word,
        ∃ acc ∈ (ctx.state q).accepts, acc.aid = aid := by
  induction word with
  | nil =>
    intro i s
    constructor
    · intro h
      obtain ⟨acc, hacc, haid, -⟩ := (offers_iff_gives hnone).mp h
      exact ⟨s, rfl, acc, hacc, haid⟩
    · intro h
      obtain ⟨q, hq, acc, hacc, haid⟩ := h
      rw [Set.mem_singleton_iff.mp hq] at hacc
      refine Offers.own ⟨acc, hacc, haid, ?_⟩
      rw [((hplain.states s).accepts acc hacc).2]
      exact Finset.empty_subset _
  | cons cp word ih =>
    intro i s
    have hstep : ∀ t, Offers ctx (holds i) s (.move cp t) ↔
        t ∈ (ctx.toNfa initial initialTags).toNFA.stepSet {s} cp := by
      intro t
      rw [offers_iff_gives hnone, NFA.stepSet_singleton]
      constructor
      · intro h
        obtain ⟨trans, htrans, hsucc, -, hcp⟩ := h
        exact ⟨trans, htrans, hcp, hsucc⟩
      · intro h
        obtain ⟨trans, htrans, hcp, hsucc⟩ := h
        refine ⟨trans, htrans, hsucc, ?_, hcp⟩
        rw [hplain.neat.getD_assertions]
        exact Finset.empty_subset _
    rw [NFA.evalFrom_cons]
    constructor
    · intro h
      obtain ⟨t, hoffer, hrest⟩ := h
      obtain ⟨q, hq, hacc⟩ := (ih (i + 1) t).mp hrest
      exact ⟨q, NFA.mem_evalFrom_iff_exists.mpr ⟨t, (hstep t).mp hoffer, hq⟩, hacc⟩
    · intro h
      obtain ⟨q, hq, hacc⟩ := h
      obtain ⟨t, ht, hrest⟩ := NFA.mem_evalFrom_iff_exists.mp hq
      exact ⟨t, (hstep t).mpr ht, (ih (i + 1) t).mpr ⟨q, hrest, hacc⟩⟩

theorem marked_iff_accepts (hnone : ctx.EpsilonFree) (hplain : ctx.Plain neg) (aid : ℕ)
    (word : List ℕ) : (∃ q ∈ (ctx.toNfa initial initialTags).toNFA.evalFrom {initial} word,
      ∃ acc ∈ (ctx.state q).accepts, acc.aid = aid) ↔ ctx.Accepts initial aid ⟨word, fun _ => ∅⟩ := by
  rw [← recognizes_iff_marked hnone hplain (fun _ => ∅) aid word 0 initial]
  exact (accepts_iff_recognizes ctx initial aid ⟨word, fun _ => ∅⟩).symm

theorem exists_of_mem_allTrans {nfa : Nfa} {t : NfaTransition} (h : t ∈ nfa.allTrans) :
    ∃ q, t ∈ (nfa.state q).trans := by
  obtain ⟨s, hs, ht⟩ := List.mem_flatMap.mp h
  obtain ⟨q, hq, rfl⟩ := List.mem_iff_getElem.mp hs
  refine ⟨q, ?_⟩
  rw [Nfa.state, List.getD_eq_getElem?_getD, List.getElem?_eq_getElem hq, Option.getD_some]
  exact ht

theorem NfaContext.Plain.decides (h : ctx.Plain neg) (hnone : ctx.EpsilonFree)
    (hL : ∀ x : Input, (∃ aid, ctx.Accepts initial aid x) ↔ x.chars ∈ L) :
    (ctx.toNfa initial initialTags).Decides L := by
  have hclass : ∀ x ∈ (ctx.toNfa initial initialTags).transCcls, x.Neat neg := by
    intro x hx
    obtain ⟨s, hs, hx⟩ := List.mem_flatMap.mp hx
    obtain ⟨t, ht, rfl⟩ := List.mem_map.mp hx
    have ht : t ∈ (ctx.toNfa initial initialTags).allTrans :=
      List.mem_flatMap.mpr ⟨s, hs, ht⟩
    obtain ⟨q, hq⟩ := exists_of_mem_allTrans ht
    have hlt : t.ccl < ctx.ccls.ccls.length := h.wellFormed.ccls q t hq
    change (ctx.ccls.ccls.getD t.ccl ⟨∅, none⟩).Neat neg
    rw [List.getD_eq_getElem?_getD, List.getElem?_eq_getElem hlt, Option.getD_some]
    exact h.neat.ccls _ (List.getElem_mem hlt)
  refine ⟨fun t ht => ?_, fun q acc hacc => ((h.states q).accepts acc hacc).1,
    fun x hx y _ _ _ s hs => (hclass x hx).clean.avoids hs _, fun x hx => (hclass x hx).assertions_eq,
    fun q acc hacc => ((h.states q).accepts acc hacc).2, ?_⟩
  · obtain ⟨q, hq⟩ := exists_of_mem_allTrans ht
    exact (h.states q).trans t hq
  · ext word
    rw [← hL ⟨word, fun _ => ∅⟩, NFA.accepts_eq_acceptsFrom_start]
    constructor
    · intro hword
      obtain ⟨q, hne, hq⟩ := hword
      obtain ⟨acc, rest, hacc⟩ := List.exists_cons_of_ne_nil hne
      exact ⟨acc.aid, (marked_iff_accepts hnone h acc.aid word).mp
        ⟨q, hq, acc, hacc ▸ List.mem_cons_self, rfl⟩⟩
    · intro hword
      obtain ⟨aid, hword⟩ := hword
      obtain ⟨q, hq, acc, hacc, -⟩ := (marked_iff_accepts hnone h aid word).mpr hword
      exact ⟨q, List.ne_nil_of_mem hacc, hq⟩

end

end Hilti.Justrx
