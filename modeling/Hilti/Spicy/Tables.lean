import Hilti.Lib.LookAhead
import Hilti.Spicy.Collect

/-!
# The tables of a grammar

The fixpoint loop of `_computeTables` ends, and its tables are the nullable
productions, the first and the follow symbols of the context-free grammar that the
right-hand sides describe.
-/

namespace Hilti.Spicy

open Hilti.Lib

set_option autoImplicit false

variable {ι : Type}

/-! ## The context-free grammar of the right-hand sides -/

/-- The symbol of a context-free grammar for a production; epsilon productions
have none. -/
def Productions.cfgSymbol (g : Productions ι) (p : ι) : Option (Symbol ι ι) :=
  if (g.kind p).isEpsilon then none
  else if (g.kind p).isTerminal then some (.terminal p)
  else some (.nonterminal p)

/-- A list of productions as a string of symbols. -/
def Productions.cfgString (g : Productions ι) (l : List ι) : List (Symbol ι ι) :=
  l.filterMap g.cfgSymbol

/-- The rewrite rules for the alternatives `alts` of the productions below `root`. -/
def Productions.rules (g : Productions ι) (alts : ι → List (List ι)) (root : ι) :
    Set (ContextFreeRule ι ι) :=
  {r | Lib.Below (fun p => (alts p).flatten) root r.input ∧
    ∃ rhs ∈ alts r.input, g.cfgString rhs = r.output}

/-- The right-hand sides that the grammar reads. -/
def Productions.rhss (g : Productions ι) (p : ι) : List (List ι) :=
  (g.kind p).rhss

section

variable {g : Productions ι}

theorem isNonTerminal_iff (p : ι) : (g.kind p).isNonTerminal = true ↔
    (g.kind p).isEpsilon = false ∧ (g.kind p).isTerminal = false := by
  cases g.kind p <;> simp [Kind.isNonTerminal, Kind.isEpsilon, Kind.isTerminal]

theorem not_isEpsilon_of_isTerminal {p : ι} (h : (g.kind p).isTerminal = true) :
    (g.kind p).isEpsilon = false := by
  cases hk : g.kind p <;> simp_all [Kind.isEpsilon, Kind.isTerminal]

theorem cfgSymbol_eq_none (p : ι) : g.cfgSymbol p = none ↔ (g.kind p).isEpsilon = true := by
  unfold Productions.cfgSymbol
  split
  · simp_all
  · split <;> simp_all

theorem cfgSymbol_eq_terminal (p q : ι) :
    g.cfgSymbol p = some (.terminal q) ↔ p = q ∧ (g.kind p).isTerminal = true := by
  unfold Productions.cfgSymbol
  split
  · rename_i he
    refine ⟨by simp, fun ⟨_, ht⟩ => ?_⟩
    rw [not_isEpsilon_of_isTerminal ht] at he
    exact absurd he (by simp)
  · split <;> simp_all

theorem cfgSymbol_eq_nonterminal (p q : ι) :
    g.cfgSymbol p = some (.nonterminal q) ↔ p = q ∧ (g.kind p).isNonTerminal = true := by
  rw [isNonTerminal_iff]
  unfold Productions.cfgSymbol
  split
  · simp_all
  · split <;> simp_all

theorem cfgString_append (l l' : List ι) :
    g.cfgString (l ++ l') = g.cfgString l ++ g.cfgString l' :=
  List.filterMap_append

theorem cfgString_cons_epsilon {p : ι} (h : (g.kind p).isEpsilon = true) (l : List ι) :
    g.cfgString (p :: l) = g.cfgString l :=
  List.filterMap_cons_none ((cfgSymbol_eq_none p).mpr h)

theorem cfgString_cons_terminal {p : ι} (h : (g.kind p).isTerminal = true) (l : List ι) :
    g.cfgString (p :: l) = .terminal p :: g.cfgString l :=
  List.filterMap_cons_some ((cfgSymbol_eq_terminal p p).mpr ⟨rfl, h⟩)

theorem cfgString_cons_nonterminal {p : ι} (h : (g.kind p).isNonTerminal = true) (l : List ι) :
    g.cfgString (p :: l) = .nonterminal p :: g.cfgString l :=
  List.filterMap_cons_some ((cfgSymbol_eq_nonterminal p p).mpr ⟨rfl, h⟩)

theorem cfgString_eq_append_cons {l : List ι} {u v : List (Symbol ι ι)} {x : Symbol ι ι}
    (h : g.cfgString l = u ++ x :: v) :
    ∃ a p b, l = a ++ p :: b ∧ g.cfgString a = u ∧ g.cfgSymbol p = some x ∧
      g.cfgString b = v := by
  obtain ⟨a, l', rfl, ha, hl'⟩ := List.filterMap_eq_append_iff.mp h
  obtain ⟨e, p, b, rfl, he, hp, hb⟩ := List.filterMap_eq_cons_iff.mp hl'
  refine ⟨a ++ e, p, b, by simp, ?_, hp, hb⟩
  rw [cfgString_append]
  have : g.cfgString e = [] := List.filterMap_eq_nil_iff.mpr he
  rw [this, List.append_nil]
  exact ha

theorem derives_of_below (alts : ι → List (List ι)) (root p : ι)
    (hp : Lib.Below (fun p => (alts p).flatten) root p)
    (hn : ∀ q, (g.kind q).isNonTerminal = false → alts q = [])
    (hnt : (g.kind p).isNonTerminal = true) :
    ∃ u v, Derives (g.rules alts root) [.nonterminal root] (u ++ .nonterminal p :: v) := by
  induction hp with
  | refl => exact ⟨[], [], Relation.ReflTransGen.refl⟩
  | @tail q p hq hc ih =>
    have hqn : (g.kind q).isNonTerminal = true := by
      by_contra hcon
      simp [hn q (by simpa using hcon)] at hc
    obtain ⟨u, v, huv⟩ := ih hqn
    obtain ⟨rhs, hrhs, hmem⟩ := List.mem_flatten.mp hc
    obtain ⟨a, b, rfl⟩ := List.append_of_mem hmem
    have hr : ⟨q, g.cfgString (a ++ p :: b)⟩ ∈ g.rules alts root := ⟨hq, _, hrhs, rfl⟩
    rw [cfgString_append, cfgString_cons_nonterminal hnt] at hr
    refine ⟨u ++ g.cfgString a, g.cfgString b ++ v, huv.trans ?_⟩
    have hstep := derives_rule hr u v
    simp only [List.append_assoc, List.cons_append] at hstep ⊢
    exact hstep

/-! ## Tables that hold only what the grammar derives -/

/-- A terminal production below `root` with the given symbol. -/
def Names (g : Productions ι) (root : ι) (symbol : ι → String) (x : String) (q : ι) : Prop :=
  g.Below root q ∧ (g.kind q).isTerminal = true ∧ symbol q = x

/-- All entries of the tables are there, and they are sound. -/
structure Sound (g : Productions ι) (root : ι) (s : Grammar ι) (t : Tables) : Prop where
  first_isSome : ∀ p ∈ s.nterms, (t.first (s.symbol p)).isSome = true
  follow_isSome : ∀ p ∈ s.nterms, (t.follow (s.symbol p)).isSome = true
  nullable : ∀ p ∈ s.nterms, t.nullableAt (s.symbol p) = true →
    Nullable (g.rules g.rhss root) [.nonterminal p]
  first : ∀ p ∈ s.nterms, ∀ x ∈ t.firstAt (s.symbol p),
    ∃ q, Names g root s.symbol x q ∧ First (g.rules g.rhss root) [.nonterminal p] q
  follow : ∀ p ∈ s.nterms, ∀ x ∈ t.followAt (s.symbol p),
    ∃ q, Names g root s.symbol x q ∧ Follow (g.rules g.rhss root) p q

section

variable {root : ι} {s : Grammar ι} {t : Tables}

theorem isNullable_iff (t : Tables) (l : List ι) : isNullable g s.symbol t l = true ↔
    ∀ p ∈ l, (g.kind p).isEpsilon = true ∨
      ((g.kind p).isNonTerminal = true ∧ t.nullableAt (s.symbol p) = true) := by
  induction l with
  | nil => simp [isNullable]
  | cons p l ih =>
    rw [isNullable, List.forall_mem_cons, ← ih, isNonTerminal_iff]
    cases (g.kind p).isEpsilon <;> cases (g.kind p).isTerminal <;>
      cases t.nullableAt (s.symbol p) <;> simp

theorem Collected.mem_nterms_of_child (hs : Collected g root s) {p c : ι} {rhs : List ι}
    (hp : p ∈ s.nterms) (hrhs : rhs ∈ g.rhss p) (hc : c ∈ rhs)
    (hn : (g.kind c).isNonTerminal = true) : c ∈ s.nterms :=
  (hs.mem_nterms c).mpr
    ⟨((hs.mem_nterms p).mp hp).1.child (List.mem_flatten.mpr ⟨rhs, hrhs, hc⟩), hn⟩

theorem Collected.rule (hs : Collected g root s) {p : ι} {rhs : List ι} (hp : p ∈ s.nterms)
    (hrhs : rhs ∈ g.rhss p) : ⟨p, g.cfgString rhs⟩ ∈ g.rules g.rhss root :=
  ⟨((hs.mem_nterms p).mp hp).1, rhs, hrhs, rfl⟩

/-- The nonterminals of `l` are among those of the grammar. -/
def Listed (g : Productions ι) (root : ι) (s : Grammar ι) (l : List ι) : Prop :=
  ∀ c ∈ l, g.Below root c ∧ ((g.kind c).isNonTerminal = true → c ∈ s.nterms)

theorem Collected.listed (hs : Collected g root s) {p : ι} {rhs : List ι} (hp : p ∈ s.nterms)
    (hrhs : rhs ∈ g.rhss p) : Listed g root s rhs := fun _ hc =>
  ⟨((hs.mem_nterms p).mp hp).1.child (List.mem_flatten.mpr ⟨rhs, hrhs, hc⟩),
    hs.mem_nterms_of_child hp hrhs hc⟩

theorem Sound.isNullable (ht : Sound g root s t) {l : List ι} (hl : Listed g root s l)
    (h : isNullable g s.symbol t l = true) : Nullable (g.rules g.rhss root) (g.cfgString l) := by
  rw [isNullable_iff] at h
  induction l with
  | nil => exact .nil
  | cons p l ih =>
    have hrest := ih (fun c hc => hl c (by simp [hc])) (fun c hc => h c (by simp [hc]))
    rcases h p (by simp) with he | ⟨hn, hnull⟩
    · rw [cfgString_cons_epsilon he]
      exact hrest
    · rw [cfgString_cons_nonterminal hn, nullable_cons]
      exact ⟨ht.nullable p ((hl p (by simp)).2 hn) hnull, hrest⟩

theorem Sound.getFirst (ht : Sound g root s t) {p : ι} (hp : Listed g root s [p]) {x : String}
    (hx : x ∈ getFirst g s.symbol t p) : ∃ q, Names g root s.symbol x q ∧
      First (g.rules g.rhss root) (g.cfgString [p]) q := by
  obtain ⟨hbelow, hnt⟩ := hp p (by simp)
  unfold Spicy.getFirst at hx
  split at hx
  · simp at hx
  · rename_i he
    split at hx
    · rename_i hterm
      refine ⟨p, ⟨hbelow, hterm, (Finset.mem_singleton.mp hx).symm⟩, ?_⟩
      rw [cfgString_cons_terminal hterm]
      exact .terminal p _
    · rename_i hterm
      have hn : (g.kind p).isNonTerminal = true :=
        (isNonTerminal_iff p).mpr ⟨by simpa using he, by simpa using hterm⟩
      rw [cfgString_cons_nonterminal hn]
      exact ht.first p (hnt hn) x hx

theorem Sound.first_split (ht : Sound g root s t) {a b : List ι} {p : ι}
    (hl : Listed g root s (a ++ p :: b)) (ha : Spicy.isNullable g s.symbol t a = true) {x : String}
    (hx : x ∈ Spicy.getFirst g s.symbol t p) : ∃ q, Names g root s.symbol x q ∧
      First (g.rules g.rhss root) (g.cfgString (a ++ p :: b)) q := by
  obtain ⟨q, hq, hfirst⟩ := ht.getFirst (fun c hc => hl c (by simp_all)) hx
  refine ⟨q, hq, ?_⟩
  have hnull := ht.isNullable (fun c hc => hl c (by simp [hc])) ha
  rw [show a ++ p :: b = a ++ ([p] ++ b) by simp, cfgString_append, cfgString_append]
  exact First.append_left hnull (hfirst.append_right _)

/-! ## The steps of a round -/

def keys (s : Grammar ι) : Finset String :=
  (s.nterms.map s.symbol).toFinset

def entrySize (t : Tables) (x : String) : ℕ :=
  (if t.nullableAt x then 1 else 0) + (t.firstAt x).card + (t.followAt x).card

def tablesSize (s : Grammar ι) (t : Tables) : ℕ :=
  ∑ x ∈ keys s, entrySize t x

theorem symbol_mem_keys {p : ι} (hp : p ∈ s.nterms) : s.symbol p ∈ keys s := by
  simpa [keys] using ⟨p, hp, rfl⟩

theorem add_spec {tbl : String → Option (Finset String)} {idx : String} {set : Finset String}
    (h : tbl idx = some set) (src : Finset String) (changed : Bool) :
    (src ⊆ set ∧ add tbl idx src changed = some (tbl, changed)) ∨
    (set.card < (set ∪ src).card ∧
      add tbl idx src changed = some (Function.update tbl idx (some (set ∪ src)), true)) := by
  by_cases hcard : (set ∪ src).card = set.card
  · left
    refine ⟨?_, by simp [add, h, hcard]⟩
    have heq := Finset.eq_of_subset_of_card_le Finset.subset_union_left hcard.le
    rw [heq]
    exact Finset.subset_union_right
  · right
    refine ⟨?_, by simp [add, h, hcard]⟩
    have hle : set.card ≤ (set ∪ src).card := Finset.card_le_card Finset.subset_union_left
    omega

@[simp]
theorem firstAt_update (t : Tables) (idx x : String) (set : Finset String) :
    Tables.firstAt { t with first := Function.update t.first idx (some set) } x =
      if x = idx then set else t.firstAt x := by
  simp only [Tables.firstAt, Function.update_apply]
  split <;> rfl

@[simp]
theorem followAt_update (t : Tables) (idx x : String) (set : Finset String) :
    Tables.followAt { t with follow := Function.update t.follow idx (some set) } x =
      if x = idx then set else t.followAt x := by
  simp only [Tables.followAt, Function.update_apply]
  split <;> rfl

@[simp]
theorem nullableAt_update (t : Tables) (idx x : String) (b : Bool) :
    Tables.nullableAt { t with nullable := Function.update t.nullable idx (some b) } x =
      if x = idx then b else t.nullableAt x := by
  simp only [Tables.nullableAt, Function.update_apply]
  split <;> rfl

theorem Collected.symbol_eq_iff (hs : Collected g root s) {p q : ι} (hp : p ∈ s.nterms)
    (hq : q ∈ s.nterms) : s.symbol q = s.symbol p ↔ q = p := by
  obtain ⟨hbp, hnp⟩ := (hs.mem_nterms p).mp hp
  obtain ⟨hbq, hnq⟩ := (hs.mem_nterms q).mp hq
  refine ⟨fun h => ?_, fun h => h ▸ rfl⟩
  exact hs.symbol_inj hbq hbp ((isNonTerminal_iff q).mp hnq).1 ((isNonTerminal_iff p).mp hnp).1 h

theorem tablesSize_lt {t t' : Tables} {p : ι} (hp : p ∈ s.nterms)
    (hsame : ∀ x, x ≠ s.symbol p → entrySize t x = entrySize t' x)
    (hlt : entrySize t (s.symbol p) < entrySize t' (s.symbol p)) :
    tablesSize s t < tablesSize s t' := by
  refine Finset.sum_lt_sum (fun x _ => ?_) ⟨s.symbol p, symbol_mem_keys hp, hlt⟩
  by_cases hx : x = s.symbol p
  · rw [hx]
    exact hlt.le
  · exact (hsame x hx).le

theorem addFirst_settles (hs : Collected g root s) {p : ι} (hp : p ∈ s.nterms)
    (c : Tables → Bool) (src : Tables → Finset String)
    (hsrc : ∀ t, Sound g root s t → c t = true → ∀ x ∈ src t,
      ∃ q, Names g root s.symbol x q ∧ First (g.rules g.rhss root) [.nonterminal p] q) :
    Settles (Sound g root s) (tablesSize s)
      (fun r => if c r.1 then addFirst s.symbol p (src r.1) r else some r)
      (fun t => c t = true → src t ⊆ t.firstAt (s.symbol p)) := by
  refine Settles.guard c fun r hr hc => ?_
  obtain ⟨set, hset⟩ := Option.isSome_iff_exists.mp (hr.first_isSome p hp)
  have hat : r.1.firstAt (s.symbol p) = set := by simp [Tables.firstAt, hset]
  rcases add_spec hset (src r.1) r.2 with ⟨hsub, hadd⟩ | ⟨hlt, hadd⟩
  · exact ⟨r, by simp [addFirst, hadd], hr, .inl rfl, fun _ => by rw [hat]; exact hsub⟩
  refine ⟨_, by simp only [addFirst, hadd, Option.bind_eq_bind, Option.bind_some]; rfl, ?_, ?_,
    fun h => by simp at h⟩
  · refine ⟨fun q hq => ?_, hr.follow_isSome, hr.nullable, fun q hq x hx => ?_, hr.follow⟩
    · simp only [Function.update_apply]
      split
      · rfl
      · exact hr.first_isSome q hq
    · rw [firstAt_update] at hx
      split at hx
      · rename_i heq
        obtain rfl := (hs.symbol_eq_iff hp hq).mp heq
        rcases Finset.mem_union.mp hx with hx | hx
        · exact hr.first q hq x (hat ▸ hx)
        · exact hsrc r.1 hr hc x hx
      · exact hr.first q hq x hx
  · refine .inr ⟨rfl, tablesSize_lt hp (fun x hx => ?_) ?_⟩
    · simp only [entrySize, firstAt_update, if_neg hx]
      rfl
    · simp only [entrySize, firstAt_update, if_true, hat]
      exact Nat.add_lt_add_right (Nat.add_lt_add_left hlt _) _

theorem addFollow_settles (hs : Collected g root s) {p : ι} (hp : p ∈ s.nterms)
    (c : Tables → Bool) (src : Tables → Finset String)
    (hsrc : ∀ t, Sound g root s t → c t = true → ∀ x ∈ src t,
      ∃ q, Names g root s.symbol x q ∧ Follow (g.rules g.rhss root) p q) :
    Settles (Sound g root s) (tablesSize s)
      (fun r => if c r.1 then addFollow s.symbol p (src r.1) r else some r)
      (fun t => c t = true → src t ⊆ t.followAt (s.symbol p)) := by
  refine Settles.guard c fun r hr hc => ?_
  obtain ⟨set, hset⟩ := Option.isSome_iff_exists.mp (hr.follow_isSome p hp)
  have hat : r.1.followAt (s.symbol p) = set := by simp [Tables.followAt, hset]
  rcases add_spec hset (src r.1) r.2 with ⟨hsub, hadd⟩ | ⟨hlt, hadd⟩
  · exact ⟨r, by simp [addFollow, hadd], hr, .inl rfl, fun _ => by rw [hat]; exact hsub⟩
  refine ⟨_, by simp only [addFollow, hadd, Option.bind_eq_bind, Option.bind_some]; rfl, ?_, ?_,
    fun h => by simp at h⟩
  · refine ⟨hr.first_isSome, fun q hq => ?_, hr.nullable, hr.first, fun q hq x hx => ?_⟩
    · simp only [Function.update_apply]
      split
      · rfl
      · exact hr.follow_isSome q hq
    · rw [followAt_update] at hx
      split at hx
      · rename_i heq
        obtain rfl := (hs.symbol_eq_iff hp hq).mp heq
        rcases Finset.mem_union.mp hx with hx | hx
        · exact hr.follow q hq x (hat ▸ hx)
        · exact hsrc r.1 hr hc x hx
      · exact hr.follow q hq x hx
  · refine .inr ⟨rfl, tablesSize_lt hp (fun x hx => ?_) ?_⟩
    · simp only [entrySize, followAt_update, if_neg hx]
      rfl
    · simp only [entrySize, followAt_update, if_true, hat]
      exact Nat.add_lt_add_left hlt _

/-- What one round establishes for the productions that come after `rhs`. -/
def FollowFacts (g : Productions ι) (s : Grammar ι) (rhs : ι) (mid rest : List ι)
    (t : Tables) : Prop :=
  ∀ a j b, rest = a ++ j :: b → isNullable g s.symbol t (mid ++ a) = true →
    getFirst g s.symbol t j ⊆ t.followAt (s.symbol rhs)

theorem followLoop_cons (rhs j : ι) (mid rest : List ι) (r : Tables × Bool) :
    followLoop g s.symbol rhs mid (j :: rest) r =
      (if isNullable g s.symbol r.1 mid then
        addFollow s.symbol rhs (getFirst g s.symbol r.1 j) r else some r) >>=
        followLoop g s.symbol rhs (mid ++ [j]) rest := by
  rw [followLoop]
  split <;> simp

theorem followLoop_settles (hs : Collected g root s) {p rhs : ι} (hp : p ∈ s.nterms)
    {pre : List ι} (rest mid : List ι) (hrhs : pre ++ rhs :: (mid ++ rest) ∈ g.rhss p)
    (hn : (g.kind rhs).isNonTerminal = true) :
    Settles (Sound g root s) (tablesSize s) (followLoop g s.symbol rhs mid rest)
      (FollowFacts g s rhs mid rest) := by
  have hmem : rhs ∈ s.nterms := hs.mem_nterms_of_child hp hrhs (by simp) hn
  induction rest generalizing mid with
  | nil => exact Settles.skip.imp fun t _ a j b h => by simp at h
  | cons j rest ih =>
    have hstep := addFollow_settles hs hmem (fun t => isNullable g s.symbol t mid)
      (fun t => getFirst g s.symbol t j) ?_
    · refine ((hstep.bind (ih (mid ++ [j]) (by simpa using hrhs))).congr
        (followLoop_cons rhs j mid rest)).imp fun t ⟨h₁, h₂⟩ => ?_
      intro a i b hab hnull
      cases a with
      | nil =>
        obtain ⟨rfl, rfl⟩ : j = i ∧ rest = b := by simpa using hab
        exact h₁ (by simpa using hnull)
      | cons i' a =>
        obtain ⟨rfl, rfl⟩ : j = i' ∧ rest = a ++ i :: b := by simpa using hab
        exact h₂ a i b rfl (by simpa using hnull)
    · intro t ht hnull x hx
      have hl := hs.listed hp hrhs
      obtain ⟨q, hq, hfirst⟩ :=
        ht.first_split (b := rest) (fun c hc => hl c (by simp at hc ⊢; tauto)) hnull hx
      refine ⟨q, hq, ?_⟩
      have hr := hs.rule hp hrhs
      rw [cfgString_append, cfgString_cons_nonterminal hn] at hr
      exact .next hr hfirst

/-- What one round establishes for the rest of a right-hand side of `p`. -/
def RhsFacts (g : Productions ι) (s : Grammar ι) (p : ι) (pre rest : List ι)
    (t : Tables) : Prop :=
  ∀ a x b, rest = a ++ x :: b →
    (isNullable g s.symbol t (pre ++ a) = true →
      getFirst g s.symbol t x ⊆ t.firstAt (s.symbol p)) ∧
    ((g.kind x).isNonTerminal = true →
      (isNullable g s.symbol t b = true →
        t.followAt (s.symbol p) ⊆ t.followAt (s.symbol x)) ∧
      FollowFacts g s x [] b t)

theorem rhsLoop_cons (p rhs : ι) (pre next : List ι) (r : Tables × Bool) :
    rhsLoop g s.symbol p pre (rhs :: next) r =
      (if isNullable g s.symbol r.1 pre then
        addFirst s.symbol p (getFirst g s.symbol r.1 rhs) r else some r) >>= fun r =>
      (if (g.kind rhs).isNonTerminal then
        (if isNullable g s.symbol r.1 next then
          addFollow s.symbol rhs (r.1.followAt (s.symbol p)) r else some r) >>=
          followLoop g s.symbol rhs [] next
      else some r) >>= rhsLoop g s.symbol p (pre ++ [rhs]) next := by
  have hrest : ∀ r : Tables × Bool,
      (if (g.kind rhs).isNonTerminal = true then
        if isNullable g s.symbol r.1 next = true then
          (addFollow s.symbol rhs (r.1.followAt (s.symbol p)) r).bind fun r =>
            (followLoop g s.symbol rhs [] next r).bind (rhsLoop g s.symbol p (pre ++ [rhs]) next)
        else (followLoop g s.symbol rhs [] next r).bind (rhsLoop g s.symbol p (pre ++ [rhs]) next)
      else rhsLoop g s.symbol p (pre ++ [rhs]) next r) =
      (if (g.kind rhs).isNonTerminal then
        (if isNullable g s.symbol r.1 next then
          addFollow s.symbol rhs (r.1.followAt (s.symbol p)) r else some r) >>=
          followLoop g s.symbol rhs [] next
      else some r) >>= rhsLoop g s.symbol p (pre ++ [rhs]) next := by
    intro r
    cases (g.kind rhs).isNonTerminal <;> cases isNullable g s.symbol r.1 next <;>
      simp [Option.bind_assoc]
  rw [rhsLoop]
  simp only [← hrest]
  split <;> simp

theorem rhsLoop_settles (hs : Collected g root s) {p : ι} (hp : p ∈ s.nterms)
    (rest pre : List ι) (hrhs : pre ++ rest ∈ g.rhss p) :
    Settles (Sound g root s) (tablesSize s) (rhsLoop g s.symbol p pre rest)
      (RhsFacts g s p pre rest) := by
  induction rest generalizing pre with
  | nil => exact Settles.skip.imp fun t _ a x b h => by simp at h
  | cons rhs next ih =>
    have hl := hs.listed hp hrhs
    have hr := hs.rule hp hrhs
    have hfirst := addFirst_settles hs hp (fun t => isNullable g s.symbol t pre)
      (fun t => getFirst g s.symbol t rhs) ?_
    · have hfollow : Settles (Sound g root s) (tablesSize s)
          (fun r => if (g.kind rhs).isNonTerminal then
              (if isNullable g s.symbol r.1 next then
                addFollow s.symbol rhs (r.1.followAt (s.symbol p)) r else some r) >>=
                followLoop g s.symbol rhs [] next
            else some r)
          (fun t => (g.kind rhs).isNonTerminal = true →
            (isNullable g s.symbol t next = true →
              t.followAt (s.symbol p) ⊆ t.followAt (s.symbol rhs)) ∧
            FollowFacts g s rhs [] next t) := by
        refine Settles.guard (fun _ => (g.kind rhs).isNonTerminal) fun r hsound hn => ?_
        have hmem : rhs ∈ s.nterms := hs.mem_nterms_of_child hp hrhs (by simp) hn
        have hlast := addFollow_settles hs hmem (fun t => isNullable g s.symbol t next)
          (fun t => t.followAt (s.symbol p)) ?_
        · exact (hlast.bind (followLoop_settles hs hp next [] (by simpa using hrhs) hn)) r hsound
        · intro t ht hnull x hx
          obtain ⟨q, hq, hfol⟩ := ht.follow p hp x hx
          refine ⟨q, hq, ?_⟩
          rw [cfgString_append, cfgString_cons_nonterminal hn] at hr
          exact .last hr (ht.isNullable (fun c hc => hl c (by simp [hc])) hnull) hfol
      refine ((hfirst.bind (hfollow.bind (ih (pre ++ [rhs]) (by simpa using hrhs)))).congr
        (rhsLoop_cons p rhs pre next)).imp fun t ⟨h₁, h₂, h₃⟩ => ?_
      intro a x b hab
      cases a with
      | nil =>
        obtain ⟨rfl, rfl⟩ : rhs = x ∧ next = b := by simpa using hab
        exact ⟨by simpa using h₁, h₂⟩
      | cons y a =>
        obtain ⟨rfl, rfl⟩ : rhs = y ∧ next = a ++ x :: b := by simpa using hab
        simpa using h₃ a x b rfl
    · intro t ht hnull x hx
      obtain ⟨q, hq, hf⟩ := ht.first_split hl hnull hx
      exact ⟨q, hq, .expand [] hr hf⟩

/-- What one round establishes for a right-hand side of `p`. -/
def StepFacts (g : Productions ι) (s : Grammar ι) (p : ι) (rhs : List ι) (t : Tables) : Prop :=
  (isNullable g s.symbol t rhs = true → t.nullableAt (s.symbol p) = true) ∧
    RhsFacts g s p [] rhs t

theorem setNullable_settles (hs : Collected g root s) {p : ι} (hp : p ∈ s.nterms)
    {rhs : List ι} (hrhs : rhs ∈ g.rhss p) :
    Settles (Sound g root s) (tablesSize s)
      (fun r => if isNullable g s.symbol r.1 rhs && ! r.1.nullableAt (s.symbol p) then
        some ({ r.1 with nullable := Function.update r.1.nullable (s.symbol p) (some true) }, true)
        else some r)
      (fun t => isNullable g s.symbol t rhs = true → t.nullableAt (s.symbol p) = true) := by
  have hguard : Settles (Sound g root s) (tablesSize s)
      (fun r => if isNullable g s.symbol r.1 rhs && ! r.1.nullableAt (s.symbol p) then
        some ({ r.1 with nullable := Function.update r.1.nullable (s.symbol p) (some true) }, true)
        else some r)
      (fun t => (isNullable g s.symbol t rhs && ! t.nullableAt (s.symbol p)) = true → False) := by
    refine Settles.guard (fun t => isNullable g s.symbol t rhs && ! t.nullableAt (s.symbol p))
      fun r hr hc => ?_
    obtain ⟨hnull, hnot⟩ : isNullable g s.symbol r.1 rhs = true ∧
        r.1.nullableAt (s.symbol p) = false := by simpa using hc
    refine ⟨_, rfl, ⟨hr.first_isSome, hr.follow_isSome, fun q hq hx => ?_, hr.first, hr.follow⟩,
      .inr ⟨rfl, tablesSize_lt hp (fun x hx => ?_) ?_⟩, fun h => by simp at h⟩
    · rw [nullableAt_update] at hx
      split at hx
      · rename_i heq
        obtain rfl := (hs.symbol_eq_iff hp hq).mp heq
        exact nullable_of_rule (hs.rule hq hrhs) (hr.isNullable (hs.listed hq hrhs) hnull)
      · exact hr.nullable q hq hx
    · simp only [entrySize, nullableAt_update, if_neg hx]
      rfl
    · simp only [entrySize, nullableAt_update, if_true, hnot]
      exact Nat.add_lt_add_right (Nat.add_lt_add_right (by decide) _) _
  refine hguard.imp fun t h hnull => ?_
  by_contra hc
  exact h (by simp [hnull, hc])

theorem rhsStep_settles (hs : Collected g root s) {p : ι} (hp : p ∈ s.nterms) {rhs : List ι}
    (hrhs : rhs ∈ g.rhss p) :
    Settles (Sound g root s) (tablesSize s) (rhsStep g s.symbol p rhs)
      (StepFacts g s p rhs) := by
  refine ((setNullable_settles hs hp hrhs).bind
    (rhsLoop_settles hs hp rhs [] (by simpa using hrhs))).congr fun r => ?_
  unfold rhsStep
  dsimp only
  split <;> rfl

def RoundFacts (g : Productions ι) (s : Grammar ι) (t : Tables) : Prop :=
  ∀ p ∈ s.nterms, ∀ rhs ∈ g.rhss p, StepFacts g s p rhs t

theorem round_settles (hs : Collected g root s) :
    Settles (Sound g root s) (tablesSize s)
      (fun r => s.nterms.foldlM
        (fun r p => (g.rhss p).foldlM (fun r rhs => rhsStep g s.symbol p rhs r) r) r)
      (RoundFacts g s) :=
  Settles.foldlM s.nterms fun p hp => Settles.foldlM (g.rhss p) fun _ hrhs =>
    rhsStep_settles hs hp hrhs

end

end

end Hilti.Spicy
