import Hilti.Sink.Handed

/-!
# One round through the parsers

The loop of `__deliver_chunk` gives data to the parsers one after the other.  At a parser
that is marked as disconnected it does not go on to the next one, so that it ends only if
no parser is marked when its turn comes.
-/

namespace Hilti.Sink

open Hilti.Lib

set_option autoImplicit false

/-! ## Turns -/

/-- The parser is given data: it has not been given any, or it waits for more. -/
def ParserState.Takes (p : ParserState) : Prop :=
  p.fed = [] ∨ p.resume = true

instance (p : ParserState) : Decidable p.Takes :=
  inferInstanceAs (Decidable (_ ∨ _))

section

variable (env : Env) (data : List UInt8)

/-- How the parser ends when it is given the data. -/
def ParserState.outcome (p : ParserState) : Outcome :=
  env.parse p.id (p.fed ++ [data])

/-- The objects that the parser disconnects while it is given the data. -/
def ParserState.gone (p : ParserState) : List ℕ :=
  env.disconnects p.id (p.fed ++ [data])

/-- The parser is unlinked once it has been given the data. -/
def ParserState.Leaves (p : ParserState) : Prop :=
  p.Takes ∧ p.outcome env data ≠ .yield

/-- No parser before number `k` ends the delivery with an error. -/
def HasTurn (ps : List ParserState) (k : ℕ) : Prop :=
  ∀ j q, j < k → ps[j]? = some q → q.Takes → q.outcome env data ≠ .error

/-- Parser number `j` disconnects the object of parser number `k`, which is the first parser
with this object by then, also after the ones with the objects `front`. -/
def DisconnectedBy (front : List ℕ) (ps : List ParserState) (j k : ℕ) : Prop :=
  ∃ p q, ps[k]? = some p ∧ ps[j]? = some q ∧ j < k ∧ q.Takes ∧ p.id ∈ q.gone env data ∧
    p.id ∉ front ∧
    ∀ m r, m < k → ps[m]? = some r → r.id = p.id → m < j ∧ r.Leaves env data

/-- Parser number `k` is marked as disconnected when its turn comes. -/
def Marked (front : List ℕ) (ps : List ParserState) (k : ℕ) : Prop :=
  (∃ p, ps[k]? = some p ∧ p.disconnected = true) ∨ ∃ j, DisconnectedBy env data front ps j k

end

/-! ## Marking parsers -/

section

variable {env : Env} {data : List UInt8}

theorem disconnect_append (id : ℕ) (l₁ l₂ : List ParserState) :
    disconnect id (l₁ ++ l₂) =
      if id ∈ l₁.map ParserState.id then disconnect id l₁ ++ l₂ else l₁ ++ disconnect id l₂ := by
  induction l₁ with
  | nil => rfl
  | cons p l₁ ih =>
    rw [List.cons_append, disconnect, disconnect, ih]
    by_cases hp : p.id = id
    · simp [hp]
    · simp only [if_neg hp, List.map_cons, List.mem_cons, Ne.symm hp, false_or]
      split <;> rfl

theorem foldl_disconnect_append (gone : List ℕ) (l₁ l₂ : List ParserState) :
    ∃ l₁', gone.foldl (fun l id => disconnect id l) (l₁ ++ l₂) =
        l₁' ++ (gone.filter fun id => id ∉ l₁.map ParserState.id).foldl
          (fun l id => disconnect id l) l₂ ∧
      l₁'.map ParserState.id = l₁.map ParserState.id := by
  induction gone generalizing l₁ l₂ with
  | nil => exact ⟨l₁, rfl, rfl⟩
  | cons id gone ih =>
    rw [List.foldl_cons, disconnect_append]
    by_cases hid : id ∈ l₁.map ParserState.id
    · obtain ⟨l₁', heq, hids⟩ := ih (disconnect id l₁) l₂
      rw [disconnect_ids] at heq hids
      refine ⟨l₁', ?_, hids⟩
      rw [if_pos hid, heq, List.filter_cons_of_neg (by simpa using hid)]
    · obtain ⟨l₁', heq, hids⟩ := ih l₁ (disconnect id l₂)
      refine ⟨l₁', ?_, hids⟩
      rw [if_neg hid, heq, List.filter_cons_of_pos (by simpa using hid), List.foldl_cons]

theorem disconnect_getElem? (id : ℕ) (ps : List ParserState) (k : ℕ) :
    (disconnect id ps)[k]? = ps[k]?.map fun p =>
      { p with disconnected := p.disconnected ||
          decide (p.id = id ∧ ∀ q ∈ ps.take k, q.id ≠ p.id) } := by
  induction ps generalizing k with
  | nil => rfl
  | cons p ps ih =>
    unfold disconnect
    by_cases hp : p.id = id
    · rw [if_pos hp]
      cases k with
      | zero => simp [hp]
      | succ k =>
        rw [List.getElem?_cons_succ, List.getElem?_cons_succ]
        cases hq : ps[k]? with
        | none => rfl
        | some q =>
          have hnot : ¬ (q.id = id ∧ ∀ r ∈ (p :: ps).take (k + 1), r.id ≠ q.id) := by
            rintro ⟨hqid, hall⟩
            exact hall p (by simp) (hp.trans hqid.symm)
          simp only [Option.map_some, decide_eq_false hnot, Bool.or_false]
    · rw [if_neg hp]
      cases k with
      | zero => simp [hp]
      | succ k =>
        rw [List.getElem?_cons_succ, List.getElem?_cons_succ, ih]
        cases hq : ps[k]? with
        | none => rfl
        | some q =>
          have hiff : (q.id = id ∧ ∀ r ∈ ps.take k, r.id ≠ q.id) ↔
              (q.id = id ∧ ∀ r ∈ (p :: ps).take (k + 1), r.id ≠ q.id) := by
            rw [List.take_succ_cons, List.forall_mem_cons]
            constructor
            · rintro ⟨rfl, hall⟩
              exact ⟨rfl, hp, hall⟩
            · rintro ⟨rfl, -, hall⟩
              exact ⟨rfl, hall⟩
          simp only [Option.map_some, decide_eq_decide.mpr hiff]

theorem disconnect_take_ids (id : ℕ) (ps : List ParserState) (k : ℕ) :
    ((disconnect id ps).take k).map ParserState.id = (ps.take k).map ParserState.id := by
  rw [List.map_take, List.map_take, disconnect_ids]

theorem foldl_disconnect_getElem? (gone : List ℕ) (ps : List ParserState) (k : ℕ) :
    (gone.foldl (fun l id => disconnect id l) ps)[k]? = ps[k]?.map fun p =>
      { p with disconnected := p.disconnected ||
          decide (p.id ∈ gone ∧ ∀ q ∈ ps.take k, q.id ≠ p.id) } := by
  induction gone generalizing ps with
  | nil =>
    rw [List.foldl_nil]
    cases ps[k]? with
    | none => rfl
    | some p => simp
  | cons id gone ih =>
    rw [List.foldl_cons, ih, disconnect_getElem?]
    cases hp : ps[k]? with
    | none => rfl
    | some p =>
      have hall : (∀ q ∈ (disconnect id ps).take k, q.id ≠ p.id) ↔ ∀ q ∈ ps.take k, q.id ≠ p.id := by
        rw [← List.forall_mem_map (P := fun i => i ≠ p.id) (f := ParserState.id),
          disconnect_take_ids, List.forall_mem_map]
      simp only [Option.map_some, hall, List.mem_cons, or_and_right, Bool.decide_or, Bool.or_assoc]

/-! ## The next turn -/

variable {front : List ℕ} {p : ParserState} {ps : List ParserState}

def Unmarked (env : Env) (data : List UInt8) (front : List ℕ) (ps : List ParserState) : Prop :=
  ∀ k, HasTurn env data ps k → ¬ Marked env data front ps k

/-- The objects in front of the next parser, when `p` has had its turn. -/
def frontAfter (env : Env) (data : List UInt8) (front : List ℕ) (p : ParserState) : List ℕ :=
  if p.Takes ∧ p.outcome env data ≠ .yield then front else front ++ [p.id]

/-- The parsers that follow, when `p` has had its turn. -/
def behindAfter (env : Env) (data : List UInt8) (front : List ℕ) (p : ParserState)
    (ps : List ParserState) : List ParserState :=
  if p.Takes then
    ((p.gone env data).filter fun id => id ∉ front ++ [p.id]).foldl (fun l id => disconnect id l) ps
  else ps

theorem behindAfter_getElem? (k : ℕ) :
    (behindAfter env data front p ps)[k]? = ps[k]?.map fun r =>
      { r with disconnected := r.disconnected || decide (p.Takes ∧ r.id ∈ p.gone env data ∧
          r.id ∉ front ++ [p.id] ∧ ∀ q ∈ ps.take k, q.id ≠ r.id) } := by
  unfold behindAfter
  split
  · rename_i htakes
    rw [foldl_disconnect_getElem?]
    congr 1
    funext r
    simp only [List.mem_filter, decide_eq_true_eq, htakes, true_and, and_assoc]
  · rename_i htakes
    cases ps[k]? with
    | none => rfl
    | some r => simp [htakes]

theorem behindAfter_length : (behindAfter env data front p ps).length = ps.length := by
  have hids : (behindAfter env data front p ps).map ParserState.id = ps.map ParserState.id := by
    unfold behindAfter
    split
    · exact foldl_disconnect_ids _ _
    · rfl
  simpa using congrArg List.length hids

variable (env data front p) in
theorem behindAfter_some {k : ℕ} {q : ParserState} (h : ps[k]? = some q) :
    ∃ marked, (behindAfter env data front p ps)[k]? = some { q with disconnected := marked } :=
  ⟨_, by rw [behindAfter_getElem?, h, Option.map_some]⟩

theorem some_of_behindAfter {k : ℕ} {r : ParserState}
    (h : (behindAfter env data front p ps)[k]? = some r) :
    ∃ q, ps[k]? = some q ∧ r = { q with disconnected := r.disconnected } := by
  rw [behindAfter_getElem?] at h
  obtain ⟨q, hq, rfl⟩ := Option.map_eq_some_iff.mp h
  exact ⟨q, hq, rfl⟩

theorem hasTurn_behindAfter {k : ℕ} :
    HasTurn env data (behindAfter env data front p ps) k ↔ HasTurn env data ps k := by
  constructor
  · intro h j q hj hq htakes
    obtain ⟨marked, hr⟩ := behindAfter_some env data front p hq
    exact h j { q with disconnected := marked } hj hr htakes
  · intro h j r hj hr htakes
    obtain ⟨q, hq, heq⟩ := some_of_behindAfter hr
    rw [heq] at htakes ⊢
    exact h j q hj hq htakes

theorem hasTurn_succ {k : ℕ} (hp : ¬ (p.Takes ∧ p.outcome env data = .error)) :
    HasTurn env data (p :: ps) (k + 1) ↔ HasTurn env data ps k := by
  constructor
  · intro h j q hj hq
    exact h (j + 1) q (by omega) hq
  · intro h j q hj hq htakes
    cases j with
    | zero =>
      cases hq
      exact fun herror => hp ⟨htakes, herror⟩
    | succ j => exact h j q (by omega) hq htakes

variable (env data front ps) in
theorem marked_zero : Marked env data front (p :: ps) 0 ↔ p.disconnected = true := by
  constructor
  · rintro (⟨q, hq, hdis⟩ | ⟨j, q, r, -, -, hj, -⟩)
    · cases hq
      exact hdis
    · exact absurd hj (Nat.not_lt_zero j)
  · exact fun h => .inl ⟨p, rfl, h⟩

theorem disconnectedBy_zero {k : ℕ} : DisconnectedBy env data front (p :: ps) 0 (k + 1) ↔
    ∃ r, ps[k]? = some r ∧ p.Takes ∧ r.id ∈ p.gone env data ∧ r.id ∉ front ++ [p.id] ∧
      ∀ q ∈ ps.take k, q.id ≠ r.id := by
  constructor
  · rintro ⟨r, q, hr, hq, -, htakes, hgone, hfront, hfirst⟩
    cases hq
    refine ⟨r, hr, htakes, hgone, fun hmem => ?_, fun q hq heq => ?_⟩
    · rcases List.mem_append.mp hmem with hmem | hmem
      · exact hfront hmem
      · exact absurd (hfirst 0 p (by omega) rfl (List.mem_singleton.mp hmem).symm).1 (lt_irrefl 0)
    · obtain ⟨m, hm⟩ := List.mem_iff_getElem?.mp hq
      have hmk : m < k := by
        have := (List.getElem?_eq_some_iff.mp hm).1
        rw [List.length_take] at this
        omega
      rw [List.getElem?_take_of_lt hmk] at hm
      exact absurd (hfirst (m + 1) q (by omega) hm heq).1 (by omega)
  · rintro ⟨r, hr, htakes, hgone, hfront, hfirst⟩
    refine ⟨r, p, hr, rfl, by omega, htakes, hgone,
      fun hmem => hfront (List.mem_append_left _ hmem), fun m q hm hq heq => ?_⟩
    cases m with
    | zero =>
      cases hq
      exact absurd (by simp [heq]) hfront
    | succ m =>
      have hq' : (ps.take k)[m]? = some q := by
        rw [List.getElem?_take_of_lt (by omega)]
        exact hq
      exact absurd heq (hfirst q (List.mem_of_getElem? hq'))

theorem disconnectedBy_succ {j k : ℕ} : DisconnectedBy env data front (p :: ps) (j + 1) (k + 1) ↔
    DisconnectedBy env data (frontAfter env data front p) (behindAfter env data front p ps) j k := by
  have hfront : ∀ id, id ∉ frontAfter env data front p ↔
      id ∉ front ∧ (p.id = id → p.Takes ∧ p.outcome env data ≠ .yield) := by
    intro id
    unfold frontAfter
    split
    · rename_i hleaves
      simp [hleaves]
    · rename_i hstays
      simp only [List.mem_append, List.mem_singleton, not_or, hstays, imp_false, eq_comm]
  constructor
  · rintro ⟨r, q, hr, hq, hj, htakes, hgone, hnot, hfirst⟩
    obtain ⟨_, hr'⟩ := behindAfter_some env data front p (show ps[k]? = some r from hr)
    obtain ⟨_, hq'⟩ := behindAfter_some env data front p (show ps[j]? = some q from hq)
    refine ⟨_, _, hr', hq', by omega, htakes, hgone, ?_, ?_⟩
    · exact (hfront r.id).mpr ⟨hnot, fun heq => (hfirst 0 p (by omega) rfl heq).2⟩
    · intro m t hm ht heq
      obtain ⟨t', ht', ht⟩ := some_of_behindAfter ht
      rw [ht] at heq ⊢
      obtain ⟨hlt, hleaves⟩ := hfirst (m + 1) t' (by omega) ht' heq
      exact ⟨by omega, hleaves⟩
  · rintro ⟨r, q, hr, hq, hj, htakes, hgone, hnot, hfirst⟩
    obtain ⟨r', hr', hrr⟩ := some_of_behindAfter hr
    obtain ⟨q', hq', hqq⟩ := some_of_behindAfter hq
    rw [hrr] at hgone hnot hfirst
    rw [hqq] at htakes hgone
    obtain ⟨hnot', hleaves⟩ := (hfront r'.id).mp hnot
    refine ⟨r', q', hr', hq', by omega, htakes, hgone, hnot', fun m t hm ht heq => ?_⟩
    cases m with
    | zero =>
      cases ht
      exact ⟨by omega, hleaves heq⟩
    | succ m =>
      obtain ⟨_, ht'⟩ := behindAfter_some env data front p (show ps[m]? = some t from ht)
      obtain ⟨hlt, hleaves'⟩ := hfirst m _ (by omega) ht' heq
      exact ⟨by omega, hleaves'⟩

theorem marked_succ {k : ℕ} : Marked env data front (p :: ps) (k + 1) ↔
    Marked env data (frontAfter env data front p) (behindAfter env data front p ps) k := by
  have hflag : (∃ r, (behindAfter env data front p ps)[k]? = some r ∧ r.disconnected = true) ↔
      (∃ r, ps[k]? = some r ∧ r.disconnected = true) ∨
        DisconnectedBy env data front (p :: ps) 0 (k + 1) := by
    rw [disconnectedBy_zero, behindAfter_getElem?]
    cases ps[k]? with
    | none => simp
    | some r => simp
  unfold Marked
  rw [hflag, or_assoc]
  refine or_congr Iff.rfl ?_
  constructor
  · rintro ⟨j, hj⟩
    cases j with
    | zero => exact .inl hj
    | succ j => exact .inr ⟨j, disconnectedBy_succ.mp hj⟩
  · rintro (h | ⟨j, hj⟩)
    · exact ⟨0, h⟩
    · exact ⟨j + 1, disconnectedBy_succ.mpr hj⟩

theorem unmarked_cons (hp : ¬ (p.Takes ∧ p.outcome env data = .error)) :
    Unmarked env data front (p :: ps) ↔ p.disconnected = false ∧
      Unmarked env data (frontAfter env data front p) (behindAfter env data front p ps) := by
  constructor
  · intro h
    refine ⟨?_, fun k hturn hmarked => ?_⟩
    · rw [← Bool.not_eq_true, ← marked_zero env data front ps]
      exact h 0 fun j q hj => absurd hj (Nat.not_lt_zero j)
    · exact h (k + 1) ((hasTurn_succ hp).mpr (hasTurn_behindAfter.mp hturn)) (marked_succ.mpr hmarked)
  · rintro ⟨hdis, h⟩ k hturn hmarked
    cases k with
    | zero => simp [(marked_zero ..).mp hmarked] at hdis
    | succ k =>
      exact h k (hasTurn_behindAfter.mpr ((hasTurn_succ hp).mp hturn)) (marked_succ.mp hmarked)

theorem unmarked_cons_error (hp : p.Takes ∧ p.outcome env data = .error) :
    Unmarked env data front (p :: ps) ↔ p.disconnected = false := by
  constructor
  · intro h
    rw [← Bool.not_eq_true, ← marked_zero env data front ps]
    exact h 0 fun j q hj => absurd hj (Nat.not_lt_zero j)
  · intro hdis k hturn hmarked
    cases k with
    | zero => simp [(marked_zero ..).mp hmarked] at hdis
    | succ k => exact hturn 0 p (by omega) rfl hp.1 hp.2

/-! ## The parsers that are given the data -/

/-- The parsers that are given the data, in order: a parser that is marked when its turn comes is
passed over, and an error ends the delivery. -/
def visited (env : Env) (data : List UInt8) (front : List ℕ) : List ParserState → List ParserState
  | [] => []
  | p :: ps =>
    if p.disconnected ∨ ¬ p.Takes then visited env data (front ++ [p.id]) ps
    else p :: if p.outcome env data = .error then [] else
      visited env data (frontAfter env data front p) (behindAfter env data front p ps)
termination_by ps => ps.length
decreasing_by all_goals simp [behindAfter_length]

/-- The delivery ends, each parser that is still connected when its turn comes has been given the
data once, and the disconnected ones are removed in the end. -/
structure Visits (env : Env) (data : List UInt8) (s : SpicySink) : Prop where
  ends : ∃ fuel t, deliverLoop env data fuel 0 s =
      some (t, (visited env data [] s.head).any fun p => p.outcome env data = .error) ∧
    deliveries t.log =
      deliveries s.log ++ (visited env data [] s.head).map (fun p => (p.id, data)) ∧
    ((∀ p fed, env.finish p fed ≠ .yield) → ∃ fuel t', finishDisconnected env fuel t = some t' ∧
      ∀ p ∈ t'.head, p.disconnected = false)

/-! ## The loop -/

section

variable {s : SpicySink} {D : List ParserState}

theorem modify_length (D : List ParserState) (p : ParserState) (ps : List ParserState)
    (f : ParserState → ParserState) : (D ++ p :: ps).modify D.length f = D ++ f p :: ps := by
  induction D with
  | nil => rfl
  | cons q D ih => rw [List.cons_append, List.length_cons, List.modify_succ_cons, ih, List.cons_append]

theorem visited_cons (hp : p.disconnected = false) : visited env data front (p :: ps) =
    if p.Takes then p :: if p.outcome env data = .error then [] else
      visited env data (frontAfter env data front p) (behindAfter env data front p ps)
    else visited env data (frontAfter env data front p) (behindAfter env data front p ps) := by
  rw [visited]
  by_cases htakes : p.Takes
  · simp [hp, htakes]
  · simp [htakes, frontAfter, behindAfter]

theorem getElem?_front (h : s.head = D ++ p :: ps) : s.head[D.length]? = some p := by
  rw [h]
  simp

theorem deliverLoop_disconnected (h : s.head = D ++ p :: ps) (hp : p.disconnected = true)
    (fuel : ℕ) : deliverLoop env data fuel D.length s = none := by
  induction fuel with
  | zero => rfl
  | succ fuel ih =>
    rw [deliverLoop, getElem?_front h]
    simp only [hp, if_true]
    exact ih

variable (env data) in
def deliverAfter (fuel k : ℕ) (s : SpicySink) : Outcome → Option (SpicySink × Bool)
  | .yield => deliverLoop env data fuel (k + 1)
      { s with head := s.head.modify k fun p => { p with resume := true } }
  | .disabled => deliverLoop env data fuel k { s with head := s.head.eraseIdx k }
  | .done => deliverLoop env data fuel k { s with head := s.head.eraseIdx k }
  | .error => some ({ s with head := s.head.eraseIdx k, excpt := true }, true)

theorem deliverLoop_turn (h : s.head = D ++ p :: ps) (hp : p.disconnected = false)
    (hne : ¬ (p.Takes ∧ p.outcome env data = .error)) :
    ∃ s₁ D₁, s₁.head = D₁ ++ behindAfter env data (D.map ParserState.id) p ps ∧
      D₁.map ParserState.id = frontAfter env data (D.map ParserState.id) p ∧
      deliveries s₁.log = deliveries s.log ++ (if p.Takes then [(p.id, data)] else []) ∧
      ∀ fuel, deliverLoop env data (fuel + 1) D.length s = deliverLoop env data fuel D₁.length s₁ := by
  have hget := getElem?_front h
  have hp' : ¬ p.disconnected = true := by simp [hp]
  by_cases htakes : p.Takes
  · have hskip : ¬ (p.fed ≠ [] ∧ p.resume = false) := by
      rintro ⟨hfed, hresume⟩
      rcases htakes with hnil | hres
      · exact hfed hnil
      · simp [hres] at hresume
    obtain ⟨E, heq, hids⟩ := foldl_disconnect_append (p.gone env data)
      (D ++ [{ p with fed := p.fed ++ [data], resume := false }]) ps
    obtain ⟨D', p', rfl⟩ : ∃ D' p', E = D' ++ [p'] := by
      refine ⟨_, _, (List.dropLast_append_getLast ?_).symm⟩
      rintro rfl
      simp at hids
    rw [List.map_append, List.map_append] at hids
    obtain ⟨hD, hlast⟩ := List.append_inj' hids rfl
    have hid : p'.id = p.id := by simpa using hlast
    have hlen : D'.length = D.length := by simpa using congrArg List.length hD
    have hbehind : ((p.gone env data).filter fun id =>
        id ∉ (D ++ [{ p with fed := p.fed ++ [data], resume := false }]).map ParserState.id).foldl
          (fun l id => disconnect id l) ps = behindAfter env data (D.map ParserState.id) p ps := by
      rw [behindAfter, if_pos htakes, List.map_append]
      rfl
    rw [hbehind] at heq
    set s₀ : SpicySink := { s with
      head := D' ++ [p'] ++ behindAfter env data (D.map ParserState.id) p ps
      log := s.log ++ [Event.deliver p.id data] } with hs₀
    have hloop : ∀ fuel, deliverLoop env data (fuel + 1) D.length s =
        deliverAfter env data fuel D.length s₀ (p.outcome env data) := by
      intro fuel
      have hset : s.head.set D.length { p with fed := p.fed ++ [data], resume := false } =
          D ++ [{ p with fed := p.fed ++ [data], resume := false }] ++ ps := by
        rw [h]
        simp
      rw [deliverLoop, hget]
      simp only [if_neg hp', if_neg hskip, hset]
      rw [show env.disconnects p.id (p.fed ++ [data]) = p.gone env data from rfl, heq]
      rfl
    have hlog : deliveries (s.log ++ [Event.deliver p.id data]) = deliveries s.log ++ [(p.id, data)] := by
      rw [deliveries_append]
      rfl
    have herase : s₀.head.eraseIdx D.length = D' ++ behindAfter env data (D.map ParserState.id) p ps := by
      change (D' ++ [p'] ++ _).eraseIdx D.length = _
      rw [← hlen]
      simp [List.eraseIdx_append_of_length_le]
    cases houtcome : p.outcome env data with
    | yield =>
      refine ⟨{ s₀ with head := s₀.head.modify D.length fun p => { p with resume := true } },
        D' ++ [{ p' with resume := true }], ?_, ?_, ?_, fun fuel => ?_⟩
      · change (D' ++ [p'] ++ _).modify D.length _ = _
        rw [← hlen, List.append_assoc, List.singleton_append, modify_length, List.append_assoc]
        rfl
      · rw [frontAfter, if_neg (by simp [houtcome]), List.map_append, hD]
        simp [hid]
      · rw [if_pos htakes]
        exact hlog
      · rw [hloop, houtcome, List.length_append, hlen]
        rfl
    | disabled =>
      refine ⟨{ s₀ with head := s₀.head.eraseIdx D.length }, D', herase, ?_, ?_, fun fuel => ?_⟩
      · rw [frontAfter, if_pos ⟨htakes, by simp [houtcome]⟩, hD]
      · rw [if_pos htakes]
        exact hlog
      · rw [hloop, houtcome, hlen, deliverAfter]
    | done =>
      refine ⟨{ s₀ with head := s₀.head.eraseIdx D.length }, D', herase, ?_, ?_, fun fuel => ?_⟩
      · rw [frontAfter, if_pos ⟨htakes, by simp [houtcome]⟩, hD]
      · rw [if_pos htakes]
        exact hlog
      · rw [hloop, houtcome, hlen, deliverAfter]
    | error => exact absurd ⟨htakes, houtcome⟩ hne
  · have hskip : p.fed ≠ [] ∧ p.resume = false := by
      obtain ⟨hfed, hresume⟩ := not_or.mp htakes
      exact ⟨hfed, by simpa using hresume⟩
    refine ⟨s, D ++ [p], ?_, ?_, ?_, fun fuel => ?_⟩
    · rw [behindAfter, if_neg htakes, h]
      simp
    · rw [frontAfter, if_neg fun hleaves => htakes hleaves.1]
      simp
    · rw [if_neg htakes, List.append_nil]
    · rw [deliverLoop, hget]
      simp only [if_neg hp', if_pos hskip, List.length_append, List.length_singleton]

theorem deliverLoop_error (h : s.head = D ++ p :: ps) (hp : p.disconnected = false)
    (htakes : p.Takes) (herror : p.outcome env data = .error) :
    ∃ t, deliverLoop env data 1 D.length s = some (t, true) ∧
      deliveries t.log = deliveries s.log ++ [(p.id, data)] := by
  have hp' : ¬ p.disconnected = true := by simp [hp]
  have hskip : ¬ (p.fed ≠ [] ∧ p.resume = false) := by
    rintro ⟨hfed, hresume⟩
    rcases htakes with hnil | hres
    · exact hfed hnil
    · simp [hres] at hresume
  rw [deliverLoop, getElem?_front h]
  simp only [if_neg hp', if_neg hskip]
  rw [show env.parse p.id (p.fed ++ [data]) = .error from herror]
  refine ⟨_, rfl, ?_⟩
  change deliveries (s.log ++ [Event.deliver p.id data]) = _
  rw [deliveries_append]
  rfl

theorem deliverLoop_visits (n : ℕ) : ∀ (ps D : List ParserState) (s : SpicySink), ps.length = n →
    s.head = D ++ ps → Unmarked env data (D.map ParserState.id) ps →
    ∃ fuel t, deliverLoop env data fuel D.length s =
        some (t, (visited env data (D.map ParserState.id) ps).any
          fun p => p.outcome env data = .error) ∧
      deliveries t.log = deliveries s.log ++
        (visited env data (D.map ParserState.id) ps).map fun p => (p.id, data) := by
  induction n with
  | zero =>
    intro ps D s hn h _
    obtain rfl := List.length_eq_zero_iff.mp hn
    refine ⟨1, s, ?_, ?_⟩
    · rw [deliverLoop, show s.head[D.length]? = none by rw [h]; simp, visited]
      rfl
    · rw [visited, List.map_nil, List.append_nil]
  | succ n ih =>
    intro ps D s hn h hunmarked
    obtain ⟨p, ps, rfl⟩ := List.exists_cons_of_length_eq_add_one hn
    by_cases hne : p.Takes ∧ p.outcome env data = .error
    · have hp := (unmarked_cons_error hne).mp hunmarked
      obtain ⟨t, hloop, hlog⟩ := deliverLoop_error h hp hne.1 hne.2
      refine ⟨1, t, ?_, ?_⟩
      · rw [hloop, visited, if_neg (by simp [hp, hne.1]), if_pos hne.2]
        simp [hne.2]
      · rw [hlog, visited, if_neg (by simp [hp, hne.1]), if_pos hne.2]
        rfl
    · obtain ⟨hp, hunmarked'⟩ := (unmarked_cons hne).mp hunmarked
      obtain ⟨s₁, D₁, h₁, hfront, hlog₁, hloop⟩ := deliverLoop_turn h hp hne
      rw [← hfront] at hunmarked'
      obtain ⟨fuel, t, hloop', hlog⟩ := ih _ D₁ s₁
        (by rw [behindAfter_length]; simpa using hn) h₁ hunmarked'
      rw [hfront] at hloop' hlog
      refine ⟨fuel + 1, t, ?_, ?_⟩
      · rw [hloop, hloop', visited_cons hp]
        by_cases htakes : p.Takes
        · have herror : ¬ p.outcome env data = .error := fun herror => hne ⟨htakes, herror⟩
          simp [htakes, herror]
        · simp [htakes]
      · rw [hlog, hlog₁, visited_cons hp]
        by_cases htakes : p.Takes
        · have herror : ¬ p.outcome env data = .error := fun herror => hne ⟨htakes, herror⟩
          simp [htakes, herror]
        · simp [htakes]

theorem deliverLoop_marked (n : ℕ) : ∀ (ps D : List ParserState) (s : SpicySink), ps.length = n →
    s.head = D ++ ps → ¬ Unmarked env data (D.map ParserState.id) ps →
    ∀ fuel, deliverLoop env data fuel D.length s = none := by
  induction n with
  | zero =>
    intro ps D s hn _ hmarked
    obtain rfl := List.length_eq_zero_iff.mp hn
    refine absurd (fun k _ => ?_) hmarked
    rintro (⟨p, hp, -⟩ | ⟨j, p, q, hp, -⟩)
    · cases hp
    · cases hp
  | succ n ih =>
    intro ps D s hn h hmarked fuel
    obtain ⟨p, ps, rfl⟩ := List.exists_cons_of_length_eq_add_one hn
    by_cases hp : p.disconnected = true
    · exact deliverLoop_disconnected h hp fuel
    · have hp := Bool.eq_false_iff.mpr hp
      by_cases hne : p.Takes ∧ p.outcome env data = .error
      · exact absurd ((unmarked_cons_error hne).mpr hp) hmarked
      · have hmarked' := fun hun => hmarked ((unmarked_cons hne).mpr ⟨hp, hun⟩)
        obtain ⟨s₁, D₁, h₁, hfront, -, hloop⟩ := deliverLoop_turn h hp hne
        rw [← hfront] at hmarked'
        cases fuel with
        | zero => rfl
        | succ fuel =>
          rw [hloop]
          exact ih _ D₁ s₁ (by rw [behindAfter_length]; simpa using hn) h₁ hmarked' fuel

theorem finishDisconnected_ends (hfinish : ∀ p fed, env.finish p fed ≠ .yield) (n : ℕ) :
    ∀ s : SpicySink, s.head.length = n → ∃ fuel t, finishDisconnected env fuel s = some t ∧
      ∀ p ∈ t.head, p.disconnected = false := by
  induction n with
  | zero =>
    intro s hn
    refine ⟨1, s, ?_, ?_⟩
    · rw [finishDisconnected, List.length_eq_zero_iff.mp hn]
      rfl
    · simp [List.length_eq_zero_iff.mp hn]
  | succ n ih =>
    intro s hn
    cases hfind : s.head.findIdx? fun p => p.disconnected with
    | none =>
      refine ⟨1, s, by rw [finishDisconnected, hfind], fun p hp => ?_⟩
      simpa using List.findIdx?_eq_none_iff.mp hfind p hp
    | some i =>
      have hi : i < s.head.length := (List.findIdx?_eq_some_iff_getElem.mp hfind).1
      obtain ⟨s₁, h₁, hhead⟩ : ∃ s₁, finishParser env i s = some s₁ ∧
          s₁.head = s.head.eraseIdx i := by
        unfold finishParser
        rw [List.getElem?_eq_getElem hi]
        simp only [Option.bind_eq_bind, Option.bind_some]
        split
        · cases houtcome : env.finish s.head[i].id s.head[i].fed with
          | yield => exact absurd houtcome (hfinish _ _)
          | disabled => exact ⟨_, rfl, rfl⟩
          | done => exact ⟨_, rfl, rfl⟩
          | error => exact ⟨_, rfl, rfl⟩
        · exact ⟨_, rfl, rfl⟩
      obtain ⟨fuel, t, ht, hall⟩ := ih { s₁ with excpt := s.excpt } (by
        rw [hhead, List.length_eraseIdx_of_lt hi]
        omega)
      refine ⟨fuel + 1, t, ?_, hall⟩
      rw [finishDisconnected, hfind]
      simp only [h₁, Option.bind_eq_bind, Option.bind_some]
      exact ht

end

end

/-! ## The result -/

/-- The parsers are all visited exactly if none of them is marked when its turn comes. -/
theorem visits_iff_unmarked (env : Env) (data : List UInt8) (s : SpicySink) :
    Visits env data s ↔
      ∀ k, HasTurn env data s.head k → ¬ Marked env data [] s.head k := by
  change _ ↔ Unmarked env data [] s.head
  constructor
  · rintro ⟨fuel, t, hloop, -⟩
    by_contra hmarked
    have hnone := deliverLoop_marked s.head.length s.head [] s rfl rfl hmarked fuel
    rw [List.length_nil, hloop] at hnone
    cases hnone
  · intro hunmarked
    obtain ⟨fuel, t, hloop, hlog⟩ :=
      deliverLoop_visits s.head.length s.head [] s rfl rfl hunmarked
    exact ⟨fuel, t, hloop, hlog, fun hfinish => finishDisconnected_ends hfinish _ t rfl⟩

/-- A parser that is disconnected before data is written: the loop does not end. -/
theorem delivery_does_not_end :
    ¬ Visits ⟨fun _ _ => .done, fun _ _ => [], fun _ _ => .done, fun _ _ => false, fun _ => none⟩ [1]
      { sinkNew 0 [0] with head := disconnect 0 (sinkNew 0 [0]).head } := by
  rintro ⟨fuel, t, hloop, -⟩
  rw [show deliverLoop _ [1] fuel 0 _ = none from
    deliverLoop_disconnected (D := []) rfl rfl fuel] at hloop
  cases hloop

end Hilti.Sink
