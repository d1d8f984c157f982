import Hilti.Clone.Model

/-! # When cloning keeps the graph

A clone and a depth-first walk go side by side: as long as the walk tells objects and first words of
tuples apart, the pointer map has the clone of every object that has been cloned. Where it does not,
an object is cloned a second time. -/

namespace Hilti.Clone
set_option autoImplicit false

variable {G : Graph} {st st' : State} {es es' : List Event} {fuel : ℕ}

/-! ## The pointer map -/

theorem lookup_of_not_mem {m : List (ℕ × ℕ)} {k : ℕ} (h : k ∉ m.map Prod.fst) :
    hltPointerMapLookup m k = 0 := by
  induction m with
  | nil => rfl
  | cons e m ih =>
    obtain ⟨key, v⟩ := e
    rw [List.map_cons, List.mem_cons, not_or] at h
    unfold hltPointerMapLookup
    rw [if_neg (Ne.symm h.1)]
    exact ih h.2

theorem lookup_append_of_mem {m : List (ℕ × ℕ)} {k : ℕ} (e : ℕ × ℕ) (h : k ∈ m.map Prod.fst) :
    hltPointerMapLookup (m ++ [e]) k = hltPointerMapLookup m k := by
  induction m with
  | nil => cases h
  | cons e' m ih =>
    obtain ⟨key, v⟩ := e'
    rw [List.cons_append]
    unfold hltPointerMapLookup
    by_cases hk : key = k
    · rw [if_pos hk, if_pos hk]
    · rw [if_neg hk, if_neg hk]
      exact ih ((List.mem_cons.mp h).resolve_left (Ne.symm hk))

theorem lookup_append_of_not_mem {m : List (ℕ × ℕ)} {k : ℕ} (key v : ℕ)
    (h : k ∉ m.map Prod.fst) :
    hltPointerMapLookup (m ++ [(key, v)]) k = if key = k then v else 0 := by
  induction m with
  | nil => rfl
  | cons e' m ih =>
    obtain ⟨key', v'⟩ := e'
    rw [List.map_cons, List.mem_cons, not_or] at h
    rw [List.cons_append]
    unfold hltPointerMapLookup
    rw [if_neg (Ne.symm h.1)]
    exact ih h.2

/-! ## Poisoned addresses -/

theorem poisoned_concat (es : List Event) (e : Event) (w : ℕ) :
    Poisoned (es ++ [e]) w ↔ Poisoned es w ∨ (e = .tuple w ∧ .ref w ∉ es) := by
  constructor
  · rintro ⟨l₁, l₂, heq, hnot⟩
    rcases List.eq_nil_or_concat l₂ with rfl | ⟨l₂', x, rfl⟩
    · obtain ⟨rfl, he⟩ := List.append_inj' heq rfl
      exact .inr ⟨List.singleton_inj.mp he, hnot⟩
    · rw [List.concat_eq_append, ← List.cons_append, ← List.append_assoc] at heq
      exact .inl ⟨l₁, l₂', (List.append_inj' heq rfl).1, hnot⟩
  · rintro (⟨l₁, l₂, rfl, hnot⟩ | ⟨rfl, hnot⟩)
    · exact ⟨l₁, l₂ ++ [e], by rw [List.append_assoc, List.cons_append], hnot⟩
    · exact ⟨es, [], rfl, hnot⟩

theorem poisoned_ref (es : List Event) (p w : ℕ) : Poisoned (es ++ [.ref p]) w ↔ Poisoned es w := by
  rw [poisoned_concat]
  exact or_iff_left fun h => nomatch h.1

theorem Poisoned.of_append {w : ℕ} (h : Poisoned es w) (l : List Event) : Poisoned (es ++ l) w := by
  obtain ⟨l₁, l₂, rfl, hnot⟩ := h
  exact ⟨l₁, l₂ ++ l, by rw [List.append_assoc, List.cons_append], hnot⟩

theorem TellsApart.of_prefix (h : TellsApart es') (hle : es <+: es') : TellsApart es := by
  obtain ⟨l, rfl⟩ := hle
  intro w hw
  refine le_trans ?_ (h w (hw.of_append l))
  rw [List.count_append]
  exact Nat.le_add_right _ _

theorem TellsApart.tuple (h : TellsApart es) (x : ℕ) : TellsApart (es ++ [.tuple x]) := by
  intro w hw
  have hcount : (es ++ [Event.tuple x]).count (.ref w) = es.count (.ref w) := by
    rw [List.count_append, List.count_singleton]
    rfl
  rw [hcount]
  rcases (poisoned_concat es _ w).mp hw with hw | ⟨-, hnot⟩
  · exact h w hw
  · rw [List.count_eq_zero_of_not_mem hnot]
    exact Nat.zero_le 1

theorem TellsApart.ref (h : TellsApart es) {p : ℕ} (hp : ¬ Poisoned es p ∨ .ref p ∉ es) :
    TellsApart (es ++ [.ref p]) := by
  intro w hw
  rw [poisoned_ref] at hw
  rw [List.count_append, List.count_singleton]
  by_cases hwp : w = p
  · rw [hwp] at hw ⊢
    rw [List.count_eq_zero_of_not_mem (hp.resolve_left (not_not.mpr hw))]
    split <;> decide
  · have hne : (Event.ref p == Event.ref w) = false := by
      simpa using fun he => hwp he.symm
    rw [hne]
    exact h w hw

/-! ## Side by side -/

/-- The clone is where the walk is: it has cloned the objects that the walk has come across, and the
pointer map has the clones of those that are not poisoned. -/
structure Agrees (G : Graph) (st : State) (es : List Event) : Prop where
  keys : ∀ p, p ∈ st.log.map Prod.fst ↔ .ref p ∈ es
  poisoned : ∀ p, Poisoned es p →
    hltPointerMapLookup st.map p = 0 ∧ p ∈ st.map.map Prod.fst
  cloned : ∀ p c, ¬ Poisoned es p → (p, c) ∈ st.log → hltPointerMapLookup st.map p = c
  absent : ∀ p, ¬ Poisoned es p → p ∉ st.log.map Prod.fst → p ∉ st.map.map Prod.fst
  once : (st.log.map Prod.fst).Nodup
  different : (st.log.map Prod.snd).Nodup
  range : ∀ p c, (p, c) ∈ st.log → G.bound < c ∧ c < st.next
  next : G.bound < st.next

theorem agrees_new (G : Graph) : Agrees G (stateNew G) [] where
  keys p := by simp [stateNew]
  poisoned p h := by
    obtain ⟨l₁, l₂, heq, -⟩ := h
    simp at heq
  cloned p c _ h := by cases h
  absent p _ _ h := by cases h
  once := List.nodup_nil
  different := List.nodup_nil
  range p c h := by cases h
  next := Nat.lt_succ_self _

theorem Agrees.lookup_of_not_cloned (h : Agrees G st es) {p : ℕ} (hp : .ref p ∉ es) :
    hltPointerMapLookup st.map p = 0 := by
  by_cases hpoisoned : Poisoned es p
  · exact (h.poisoned p hpoisoned).1
  · exact lookup_of_not_mem (h.absent p hpoisoned fun hmem => hp ((h.keys p).mp hmem))

theorem Agrees.of_lookup (h : Agrees G st es) {p : ℕ} (hp : hltPointerMapLookup st.map p ≠ 0) :
    ¬ Poisoned es p ∧ .ref p ∈ es :=
  ⟨fun hpoisoned => hp (h.poisoned p hpoisoned).1,
    by_contra fun hnot => hp (h.lookup_of_not_cloned hnot)⟩

theorem Agrees.lookup_of_cloned (h : Agrees G st es) {p : ℕ} (hnot : ¬ Poisoned es p)
    (hp : .ref p ∈ es) :
    hltPointerMapLookup st.map p ≠ 0 ∧ (p, hltPointerMapLookup st.map p) ∈ st.log := by
  obtain ⟨⟨q, c⟩, hmem, rfl⟩ := List.mem_map.mp ((h.keys p).mpr hp)
  have hlookup := h.cloned q c hnot hmem
  have hc := (h.range q c hmem).1
  dsimp only
  rw [hlookup]
  exact ⟨by omega, hmem⟩

theorem Agrees.setHeap (h : Agrees G st es) (heap : ℕ → Option (List Value)) :
    Agrees G { st with heap := heap } es :=
  ⟨h.keys, h.poisoned, h.cloned, h.absent, h.once, h.different, h.range, h.next⟩

theorem Agrees.tuple (h : Agrees G st es) (x : ℕ) :
    Agrees G { st with map := hltPointerMapInsert st.map x 0 } (es ++ [.tuple x]) := by
  have hkeys : ∀ p, p ∈ st.log.map Prod.fst ↔ .ref p ∈ es ++ [.tuple x] := by
    intro p
    rw [h.keys p]
    simp
  by_cases hlookup : hltPointerMapLookup st.map x = 0
  · have hmap : hltPointerMapInsert st.map x 0 = st.map ++ [(x, 0)] :=
      if_neg (not_not.mpr hlookup)
    have hsame : ∀ p, hltPointerMapLookup (st.map ++ [(x, 0)]) p = hltPointerMapLookup st.map p := by
      intro p
      by_cases hp : p ∈ st.map.map Prod.fst
      · exact lookup_append_of_mem _ hp
      · rw [lookup_append_of_not_mem x 0 hp, lookup_of_not_mem hp, ite_self]
    rw [hmap]
    refine ⟨hkeys, fun p hp => ?_, fun p c hp hmem => ?_, fun p hp hlog => ?_, h.once, h.different,
      h.range, h.next⟩
    · rw [hsame p, List.map_append, List.mem_append]
      rcases (poisoned_concat es _ p).mp hp with hp | ⟨heq, hnot⟩
      · exact ⟨(h.poisoned p hp).1, .inl (h.poisoned p hp).2⟩
      · cases heq
        exact ⟨hlookup, .inr (List.mem_singleton.mpr rfl)⟩
    · rw [poisoned_concat, not_or] at hp
      rw [hsame p]
      exact h.cloned p c hp.1 hmem
    · rw [poisoned_concat, not_or] at hp
      rw [List.map_append, List.mem_append, not_or]
      refine ⟨h.absent p hp.1 hlog, fun hpx => hp.2 ⟨?_, fun hmem => hlog ((h.keys p).mpr hmem)⟩⟩
      rw [List.mem_singleton.mp hpx]
  · have hmap : hltPointerMapInsert st.map x 0 = st.map := if_pos hlookup
    obtain ⟨-, hmem⟩ := h.of_lookup hlookup
    have hpoisoned : ∀ p, Poisoned (es ++ [.tuple x]) p ↔ Poisoned es p := by
      intro p
      rw [poisoned_concat]
      refine or_iff_left fun hp => hp.2 ?_
      cases hp.1
      exact hmem
    rw [hmap]
    refine ⟨hkeys, fun p hp => h.poisoned p ((hpoisoned p).mp hp),
      fun p c hp => h.cloned p c fun hp' => hp ((hpoisoned p).mpr hp'),
      fun p hp => h.absent p fun hp' => hp ((hpoisoned p).mpr hp'), h.once, h.different, h.range, h.next⟩

theorem Agrees.again (h : Agrees G st es) {p : ℕ} (hp : .ref p ∈ es) :
    Agrees G st (es ++ [.ref p]) := by
  refine ⟨fun q => ?_, fun q hq => h.poisoned q ((poisoned_ref es p q).mp hq),
    fun q c hq => h.cloned q c fun hq' => hq ((poisoned_ref es p q).mpr hq'),
    fun q hq => h.absent q fun hq' => hq ((poisoned_ref es p q).mpr hq'), h.once, h.different,
    h.range, h.next⟩
  rw [h.keys q, List.mem_append, List.mem_singleton]
  refine ⟨.inl, fun hq => hq.elim id fun heq => ?_⟩
  cases heq
  exact hp

def entered (st : State) (p : ℕ) : State :=
  { cloneAlloc st p with map := hltPointerMapInsert st.map p st.next }

theorem Agrees.enter (h : Agrees G st es) {p : ℕ} (hp : .ref p ∉ es) :
    Agrees G (entered st p) (es ++ [.ref p]) := by
  have hlog : p ∉ st.log.map Prod.fst := fun hmem => hp ((h.keys p).mp hmem)
  have hmap : (entered st p).map = st.map ++ [(p, st.next)] :=
    if_neg (not_not.mpr (h.lookup_of_not_cloned hp))
  have hlogs : (entered st p).log = st.log ++ [(p, st.next)] := rfl
  refine ⟨fun q => ?_, fun q hq => ?_, fun q c hq hmem => ?_, fun q hq hmem => ?_, ?_, ?_,
    fun q c hmem => ?_, Nat.lt_succ_of_lt h.next⟩
  · rw [hlogs, List.map_append, List.mem_append, List.mem_append, h.keys q]
    simp
  · rw [poisoned_ref] at hq
    obtain ⟨hzero, hkey⟩ := h.poisoned q hq
    rw [hmap, lookup_append_of_mem _ hkey, List.map_append]
    exact ⟨hzero, List.mem_append_left _ hkey⟩
  · rw [poisoned_ref] at hq
    rw [hlogs] at hmem
    rw [hmap]
    rcases List.mem_append.mp hmem with hmem | hmem
    · have hlookup := h.cloned q c hq hmem
      have hkey : q ∈ st.map.map Prod.fst := by
        by_contra hnot
        have hc := (h.range q c hmem).1
        rw [lookup_of_not_mem hnot] at hlookup
        omega
      rw [lookup_append_of_mem _ hkey, hlookup]
    · cases List.mem_singleton.mp hmem
      rw [lookup_append_of_not_mem _ _ (h.absent p hq hlog), if_pos rfl]
  · rw [poisoned_ref] at hq
    rw [hlogs, List.map_append, List.mem_append, not_or] at hmem
    rw [hmap, List.map_append, List.mem_append, not_or]
    exact ⟨h.absent q hq hmem.1, hmem.2⟩
  · rw [hlogs, List.map_append]
    refine h.once.append (List.nodup_singleton _) fun q hq hq' => ?_
    rw [List.mem_singleton.mp hq'] at hq
    exact hlog hq
  · rw [hlogs, List.map_append]
    refine h.different.append (List.nodup_singleton _) fun c hc hc' => ?_
    obtain ⟨⟨q, c'⟩, hmem, rfl⟩ := List.mem_map.mp hc
    have hlt := (h.range q c' hmem).2
    have heq : c' = st.next := List.mem_singleton.mp hc'
    omega
  · rw [hlogs] at hmem
    change G.bound < c ∧ c < st.next + 1
    rcases List.mem_append.mp hmem with hmem | hmem
    · obtain ⟨hlo, hhi⟩ := h.range q c hmem
      exact ⟨hlo, Nat.lt_succ_of_lt hhi⟩
    · cases List.mem_singleton.mp hmem
      exact ⟨h.next, Nat.lt_succ_self _⟩

/-! ## The clone follows the walk -/

theorem walkAll_extends {f : Value → List Event → Option (List Event)}
    (hf : ∀ v es es', f v es = some es' → es <+: es') (vs : List Value) :
    ∀ es, walkAll f vs es = some es' → es <+: es' := by
  induction vs with
  | nil =>
    intro es h
    cases h
    exact List.prefix_rfl
  | cons v vs ih =>
    intro es h
    obtain ⟨es₁, h₁, h⟩ := Option.bind_eq_some_iff.mp h
    exact (hf v es es₁ h₁).trans (ih es₁ h)

theorem walk_extends (G : Graph) (fuel : ℕ) :
    ∀ v es es', walk G fuel v es = some es' → es <+: es' := by
  induction fuel with
  | zero =>
    intro v es es' h
    cases h
  | succ fuel ih =>
    intro v es es' h
    cases v with
    | atomic w =>
      cases h
      exact List.prefix_rfl
    | ref p =>
      unfold walk at h
      split at h
      · cases h
        exact List.prefix_rfl
      · split at h
        · cases h
          exact List.prefix_append _ _
        · split at h
          · cases h
          · exact (List.prefix_append _ _).trans (walkAll_extends ih _ _ h)
    | tuple vs => exact (List.prefix_append _ _).trans (walkAll_extends ih _ _ h)

theorem cloneAll_log {f : Value → State → Option (Value × State)}
    (hf : ∀ v st r, f v st = some r → st.log <+: r.2.log) (vs : List Value) :
    ∀ st r, cloneAll f vs st = some r → st.log <+: r.2.log := by
  induction vs with
  | nil =>
    intro st r h
    cases h
    exact List.prefix_rfl
  | cons v vs ih =>
    intro st r h
    obtain ⟨r₁, h₁, h⟩ := Option.bind_eq_some_iff.mp h
    obtain ⟨r₂, h₂, rfl⟩ := Option.map_eq_some_iff.mp h
    exact (hf v st r₁ h₁).trans (ih r₁.2 r₂ h₂)

theorem hltClone_log (G : Graph) (fuel : ℕ) :
    ∀ v st r, hltClone G fuel v st = some r → st.log <+: r.2.log := by
  induction fuel with
  | zero =>
    intro v st r h
    cases h
  | succ fuel ih =>
    intro v st r h
    cases v with
    | atomic w =>
      cases h
      exact List.prefix_rfl
    | ref p =>
      unfold hltClone at h
      split at h
      · cases h
        exact List.prefix_rfl
      · split at h
        · cases h
          exact List.prefix_rfl
        · split at h
          · cases h
          · obtain ⟨r', h', rfl⟩ := Option.map_eq_some_iff.mp h
            exact (List.prefix_append _ _).trans (cloneAll_log ih _ _ _ h')
    | tuple vs =>
      obtain ⟨r', h', rfl⟩ := Option.map_eq_some_iff.mp h
      have hle := cloneAll_log ih _ _ _ h'
      exact hle

theorem CellCopy.mono {log log' : List (ℕ × ℕ)} (hle : log ⊆ log') {x x' : Cell}
    (h : CellCopy log x x') : CellCopy log' x x' := by
  cases h with
  | word w => exact .word w
  | null => exact .null
  | ref p c hmem => exact .ref p c (hle hmem)
  | inline n => exact .inline n

theorem CopyAll.mono {log log' : List (ℕ × ℕ)} (hle : log ⊆ log') {vs vs' : List Value}
    (h : CopyAll log vs vs') : CopyAll log' vs vs' :=
  List.Forall₂.imp (fun _ _ hc => hc.mono hle) h

theorem cellsAll_cons (v : Value) (vs : List Value) : cellsAll (v :: vs) = v.cells ++ cellsAll vs :=
  rfl

theorem cellsAll_append (vs ws : List Value) : cellsAll (vs ++ ws) = cellsAll vs ++ cellsAll ws := by
  induction vs with
  | nil => rfl
  | cons v vs ih => rw [List.cons_append, cellsAll_cons, cellsAll_cons, ih, List.append_assoc]

theorem Reaches.of_object {vs fs : List Value} {p q : ℕ} (hp : Reaches G vs p)
    (hfs : G.objs p = some fs) (h : Reaches G fs q) : Reaches G vs q := by
  induction h with
  | root q hq hmem => exact .step p q fs hp hfs hq hmem
  | step r q gs _ hgs hq hmem ih => exact .step r q gs ih hgs hq hmem

theorem Reaches.of_subset {vs ws : List Value} {q : ℕ} (hle : cellsAll vs ⊆ cellsAll ws)
    (h : Reaches G vs q) : Reaches G ws q := by
  induction h with
  | root q hq hmem => exact .root q hq (hle hmem)
  | step r q gs _ hgs hq hmem ih => exact .step r q gs ih hgs hq hmem

/-- Cloning these values has added complete clones of objects that the values lead to. -/
structure Extends (G : Graph) (vs vs' : List Value) (st st' : State) : Prop where
  next_le : st.next ≤ st'.next
  heap_eq : ∀ c, c < st.next → st'.heap c = st.heap c
  length_eq : vs'.length = vs.length
  copy : CopyAll st'.log vs vs'
  log_le : st.log ⊆ st'.log
  added : ∀ p c, (p, c) ∈ st'.log → (p, c) ∈ st.log ∨
    (Reaches G vs p ∧ st.next ≤ c ∧
      ∃ fs fs', G.objs p = some fs ∧ st'.heap c = some fs' ∧ CopyAll st'.log fs fs')

theorem Extends.append {vs vs' ws ws' : List Value} {st'' : State} (h : Extends G vs vs' st st')
    (h' : Extends G ws ws' st' st'') (hrange : ∀ p c, (p, c) ∈ st'.log → c < st'.next) :
    Extends G (vs ++ ws) (vs' ++ ws') st st'' where
  next_le := h.next_le.trans h'.next_le
  heap_eq c hc := (h'.heap_eq c (hc.trans_le h.next_le)).trans (h.heap_eq c hc)
  length_eq := by rw [List.length_append, List.length_append, h.length_eq, h'.length_eq]
  copy := by
    unfold CopyAll
    rw [cellsAll_append, cellsAll_append]
    exact List.rel_append (h.copy.mono h'.log_le) h'.copy
  log_le := List.Subset.trans h.log_le h'.log_le
  added p c hmem := by
    rcases h'.added p c hmem with hmem' | ⟨hreach, hc, hfields⟩
    · rcases h.added p c hmem' with hold | ⟨hreach, hc, fs, fs', hfs, hheap, hcopy⟩
      · exact .inl hold
      · refine .inr ⟨hreach.of_subset ?_, hc, fs, fs', hfs, ?_, hcopy.mono h'.log_le⟩
        · rw [cellsAll_append]
          exact List.subset_append_left _ _
        · rw [h'.heap_eq c (hrange p c hmem')]
          exact hheap
    · refine .inr ⟨hreach.of_subset ?_, h.next_le.trans hc, hfields⟩
      rw [cellsAll_append]
      exact List.subset_append_right _ _

def Follows (G : Graph) (f : Value → State → Option (Value × State))
    (g : Value → List Event → Option (List Event)) : Prop :=
  ∀ v st es es', Agrees G st es → TellsApart es' → g v es = some es' →
    ∃ v' st', f v st = some (v', st') ∧ Agrees G st' es' ∧ Extends G [v] [v'] st st'

theorem cloneAll_follows {f : Value → State → Option (Value × State)}
    {g : Value → List Event → Option (List Event)} (hf : Follows G f g)
    (hg : ∀ v es es', g v es = some es' → es <+: es') (vs : List Value) :
    ∀ st es es', Agrees G st es → TellsApart es' → walkAll g vs es = some es' →
      ∃ vs' st', cloneAll f vs st = some (vs', st') ∧ Agrees G st' es' ∧
        Extends G vs vs' st st' := by
  induction vs with
  | nil =>
    intro st es es' h _ hwalk
    cases hwalk
    refine ⟨[], st, rfl, h, ?_⟩
    exact ⟨le_rfl, fun _ _ => rfl, rfl, List.Forall₂.nil, List.Subset.refl _, fun _ _ h => .inl h⟩
  | cons v vs ih =>
    intro st es es' h hapart hwalk
    obtain ⟨es₁, hwalk₁, hwalk⟩ := Option.bind_eq_some_iff.mp hwalk
    have hapart₁ := hapart.of_prefix (walkAll_extends hg vs es₁ hwalk)
    obtain ⟨v', st₁, hclone₁, h₁, hext₁⟩ := hf v st es es₁ h hapart₁ hwalk₁
    obtain ⟨vs', st₂, hclone₂, h₂, hext₂⟩ := ih st₁ es₁ es' h₁ hapart hwalk
    refine ⟨v' :: vs', st₂, ?_, h₂, hext₁.append hext₂ fun p c hmem => (h₁.range p c hmem).2⟩
    unfold cloneAll
    rw [hclone₁, Option.bind_some, hclone₂, Option.map_some]

theorem copyAll_ref {log : List (ℕ × ℕ)} {p c : ℕ} (h : CellCopy log (.ref p) (.ref c)) :
    CopyAll log [.ref p] [.ref c] := List.Forall₂.cons h List.Forall₂.nil

theorem hltClone_follows (G : Graph) (fuel : ℕ) : Follows G (hltClone G fuel) (walk G fuel) := by
  induction fuel with
  | zero =>
    intro v st es es' _ _ hwalk
    cases hwalk
  | succ fuel ih =>
    intro v st es es' h hapart hwalk
    cases v with
    | atomic w =>
      cases hwalk
      refine ⟨_, st, rfl, h, le_rfl, fun _ _ => rfl, rfl, ?_, List.Subset.refl _, fun _ _ h => .inl h⟩
      exact List.Forall₂.cons (.word w) List.Forall₂.nil
    | ref p =>
      unfold walk at hwalk
      unfold hltClone
      split at hwalk
      · rename_i hp
        cases hwalk
        rw [if_pos hp, hp]
        exact ⟨_, st, rfl, h, le_rfl, fun _ _ => rfl, rfl, copyAll_ref .null, List.Subset.refl _,
          fun _ _ h => .inl h⟩
      rename_i hp
      rw [if_neg hp]
      split at hwalk
      · rename_i hmem
        cases hwalk
        -- a poisoned object would be referenced twice now
        have hnot : ¬ Poisoned es p := by
          intro hpoisoned
          have hle := hapart p (hpoisoned.of_append _)
          have hpos := List.count_pos_iff.mpr hmem
          rw [List.count_append, List.count_singleton_self] at hle
          omega
        obtain ⟨hne, hlog⟩ := h.lookup_of_cloned hnot hmem
        rw [if_pos hne]
        exact ⟨_, st, rfl, h.again hmem, le_rfl, fun _ _ => rfl, rfl,
          copyAll_ref (.ref _ _ hlog), List.Subset.refl _, fun _ _ h => .inl h⟩
      · rename_i hmem
        rw [if_neg (not_not.mpr (h.lookup_of_not_cloned hmem))]
        split at hwalk
        · cases hwalk
        rename_i fs hfs
        obtain ⟨fs', st', hclone, h', hext⟩ :=
          cloneAll_follows ih (walk_extends G fuel) fs _ _ _ (h.enter hmem) hapart hwalk
        have hself : (p, st.next) ∈ st'.log :=
          hext.log_le (List.mem_append_right _ (List.mem_singleton.mpr rfl))
        have hroot : Reaches G [.ref p] p := .root p hp (List.mem_singleton.mpr rfl)
        have hnext : st.next + 1 ≤ st'.next := hext.next_le
        refine ⟨.ref st.next, { st' with heap := Function.update st'.heap st.next (some fs') },
          ?_, h'.setHeap _, ?_⟩
        · change (cloneAll (hltClone G fuel) fs (entered st p)).map _ = _
          rw [hclone, Option.map_some]
        · refine ⟨Nat.le_of_succ_le hnext, fun c hc => ?_, rfl, copyAll_ref (.ref p _ hself),
            fun e he => hext.log_le (List.mem_append_left _ he), fun q c hq => ?_⟩
          · dsimp only
            rw [Function.update_of_ne (Nat.ne_of_lt hc), hext.heap_eq c (Nat.lt_succ_of_lt hc)]
            exact Function.update_of_ne (Nat.ne_of_lt hc) _ _
          · dsimp only
            rcases hext.added q c hq with hold | ⟨hreach, hc, gs, gs', hgs, hheap, hcopy⟩
            · rcases List.mem_append.mp hold with hold | hold
              · exact .inl hold
              · cases List.mem_singleton.mp hold
                rw [Function.update_self]
                exact .inr ⟨hroot, le_rfl, fs, fs', hfs, rfl, hext.copy⟩
            · have hc' : st.next + 1 ≤ c := hc
              rw [Function.update_of_ne (by omega)]
              exact .inr ⟨hroot.of_object hfs hreach, by omega, gs, gs', hgs, hheap, hcopy⟩
    | tuple vs =>
      unfold walk at hwalk
      unfold hltClone
      obtain ⟨vs', st', hclone, h', hext⟩ :=
        cloneAll_follows ih (walk_extends G fuel) vs _ _ _ (h.tuple (firstWord vs)) hapart hwalk
      refine ⟨.tuple vs', st', ?_, h', hext.next_le, hext.heap_eq, rfl, ?_, hext.log_le,
        fun q c hq => ?_⟩
      · dsimp only
        rw [hclone, Option.map_some]
      · have hcells : ∀ ws : List Value,
            cellsAll [.tuple ws] = .inline ws.length :: cellsAll ws := by
          intro ws
          rw [cellsAll_cons, show cellsAll [] = [] from rfl, List.append_nil]
          rfl
        unfold CopyAll
        rw [hcells, hcells, hext.length_eq]
        exact List.Forall₂.cons (.inline _) hext.copy
      · rcases hext.added q c hq with hold | ⟨hreach, hrest⟩
        · exact .inl hold
        · refine .inr ⟨hreach.of_subset ?_, hrest⟩
          rw [cellsAll_cons, show cellsAll [] = [] from rfl, List.append_nil]
          exact List.subset_cons_self _ _

/-! ## The walk follows the clone -/

def Followed (G : Graph) (f : Value → State → Option (Value × State))
    (g : Value → List Event → Option (List Event)) : Prop :=
  ∀ v st es r, Agrees G st es → TellsApart es → f v st = some r → (r.2.log.map Prod.fst).Nodup →
    ∃ es', g v es = some es' ∧ TellsApart es'

theorem walkAll_followed {f : Value → State → Option (Value × State)}
    {g : Value → List Event → Option (List Event)} (hf : Followed G f g) (hfollows : Follows G f g)
    (hlog : ∀ v st r, f v st = some r → st.log <+: r.2.log) (vs : List Value) :
    ∀ st es r, Agrees G st es → TellsApart es → cloneAll f vs st = some r →
      (r.2.log.map Prod.fst).Nodup → ∃ es', walkAll g vs es = some es' ∧ TellsApart es' := by
  induction vs with
  | nil =>
    intro st es r _ hapart _ _
    exact ⟨es, rfl, hapart⟩
  | cons v vs ih =>
    intro st es r h hapart hclone honce
    obtain ⟨r₁, hclone₁, hclone⟩ := Option.bind_eq_some_iff.mp hclone
    obtain ⟨r₂, hclone₂, rfl⟩ := Option.map_eq_some_iff.mp hclone
    have hle : r₁.2.log <+: r₂.2.log := cloneAll_log hlog _ _ _ hclone₂
    have honce₁ : (r₁.2.log.map Prod.fst).Nodup := honce.sublist (hle.map Prod.fst).sublist
    obtain ⟨es₁, hwalk₁, hapart₁⟩ := hf v st es r₁ h hapart hclone₁ honce₁
    obtain ⟨v', st₁, hsame, h₁, -⟩ := hfollows v st es es₁ h hapart₁ hwalk₁
    cases hclone₁.symm.trans hsame
    obtain ⟨es₂, hwalk₂, hapart₂⟩ := ih st₁ es₁ r₂ h₁ hapart₁ hclone₂ honce
    refine ⟨es₂, ?_, hapart₂⟩
    unfold walkAll
    rw [hwalk₁, Option.bind_some, hwalk₂]

theorem walk_followed (G : Graph) (fuel : ℕ) : Followed G (hltClone G fuel) (walk G fuel) := by
  induction fuel with
  | zero =>
    intro v st es r _ _ hclone _
    cases hclone
  | succ fuel ih =>
    intro v st es r h hapart hclone honce
    cases v with
    | atomic w => exact ⟨es, rfl, hapart⟩
    | ref p =>
      unfold walk
      unfold hltClone at hclone
      split at hclone
      · rename_i hp
        rw [if_pos hp]
        exact ⟨es, rfl, hapart⟩
      rename_i hp
      rw [if_neg hp]
      split at hclone
      · rename_i hlookup
        obtain ⟨hnot, hmem⟩ := h.of_lookup hlookup
        rw [if_pos hmem]
        exact ⟨_, rfl, hapart.ref (.inl hnot)⟩
      · split at hclone
        · cases hclone
        rename_i fs hfs
        obtain ⟨r', hfields, rfl⟩ := Option.map_eq_some_iff.mp hclone
        -- an object that has been cloned before would be cloned twice
        have hmem : .ref p ∉ es := by
          intro hmem
          have hle : (entered st p).log <+: r'.2.log := cloneAll_log (hltClone_log G fuel) _ _ _ hfields
          have hnodup : ((entered st p).log.map Prod.fst).Nodup :=
            honce.sublist (hle.map Prod.fst).sublist
          change ((st.log ++ [(p, st.next)]).map Prod.fst).Nodup at hnodup
          rw [List.map_append, List.nodup_append] at hnodup
          exact hnodup.2.2 p ((h.keys p).mpr hmem) p (List.mem_singleton.mpr rfl) rfl
        rw [if_neg hmem]
        exact walkAll_followed ih (hltClone_follows G fuel) (hltClone_log G fuel) fs _ _ r'
          (h.enter hmem) (hapart.ref (.inr hmem)) hfields honce
    | tuple vs =>
      obtain ⟨r', helems, rfl⟩ := Option.map_eq_some_iff.mp hclone
      exact walkAll_followed ih (hltClone_follows G fuel) (hltClone_log G fuel) vs _ _ r'
        (h.tuple (firstWord vs)) (hapart.tuple (firstWord vs)) helems honce

/-! ## Deep cloning -/

theorem CopyAll.mem_log {log : List (ℕ × ℕ)} {vs vs' : List Value} (h : CopyAll log vs vs') {p : ℕ}
    (hp : p ≠ 0) (hmem : .ref p ∈ cellsAll vs) : p ∈ log.map Prod.fst := by
  obtain ⟨i, hi, heq⟩ := List.getElem_of_mem hmem
  have hcopy := h.get hi (h.length_eq ▸ hi)
  rw [List.get_eq_getElem, heq] at hcopy
  generalize (cellsAll vs').get _ = x at hcopy
  cases hcopy with
  | null => exact absurd rfl hp
  | ref _ c hc => exact List.mem_map_of_mem hc

theorem ClonesWell.walk {v : Value} (h : ClonesWell G v) :
    ∃ fuel es, walk G fuel v [] = some es ∧ TellsApart es := by
  obtain ⟨fuel, v', st, hclone, hiso⟩ := h
  have hapart : TellsApart [] := fun w _ => Nat.zero_le _
  obtain ⟨es, hwalk, hapart'⟩ :=
    walk_followed G fuel v (stateNew G) [] (v', st) (agrees_new G) hapart hclone hiso.once
  exact ⟨fuel, es, hwalk, hapart'⟩

theorem clonesWell_of_walk {v : Value} (hwalk : walk G fuel v [] = some es)
    (hapart : TellsApart es) : ClonesWell G v := by
  obtain ⟨v', st, hclone, h, hext⟩ :=
    hltClone_follows G fuel v (stateNew G) [] es (agrees_new G) hapart hwalk
  have hadded : ∀ p c, (p, c) ∈ st.log → Reaches G [v] p ∧
      ∃ fs fs', G.objs p = some fs ∧ st.heap c = some fs' ∧ CopyAll st.log fs fs' := by
    intro p c hmem
    rcases hext.added p c hmem with hold | ⟨hreach, -, hfields⟩
    · cases hold
    · exact ⟨hreach, hfields⟩
  refine ⟨fuel, v', st, hclone, hext.copy, h.once, h.different, fun p => ⟨fun hp => ?_, fun hp => ?_⟩,
    fun p c hmem => (hadded p c hmem).2, fun p c hmem => ?_⟩
  · obtain ⟨⟨q, c⟩, hmem, rfl⟩ := List.mem_map.mp hp
    exact (hadded q c hmem).1
  · induction hp with
    | root p hp hmem => exact hext.copy.mem_log hp hmem
    | step q p fs _ hfs hp hmem ih =>
      obtain ⟨⟨q', c⟩, hlog, rfl⟩ := List.mem_map.mp ih
      obtain ⟨fs₁, fs', hfs₁, -, hcopy⟩ := (hadded q' c hlog).2
      cases hfs.symm.trans hfs₁
      exact hcopy.mem_log hp hmem
  · by_contra hne
    obtain ⟨fs, hfs⟩ := Option.ne_none_iff_exists'.mp hne
    have hlt := G.lt_bound c fs hfs
    have hlo := (h.range p c hmem).1
    omega

/-- One object without fields. -/
def oneObject : Graph where
  objs := fun p => if p = 1 then some [] else none
  bound := 2
  lt_bound p fs h := by
    split at h
    · omega
    · cases h

end Hilti.Clone
