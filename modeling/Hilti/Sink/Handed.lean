import Hilti.Sink.Close

/-!
# What a sink hands to its parsers

The log of a sink has the data that parsers were given, but not the positions of the
stream that the data come from.  `handedBy` follows an operation and collects the
chunks of data on their way to the parsers, and `Gives` says that these are the ones
that the log has.
-/

namespace Hilti.Sink

open Hilti.Lib Hilti.Lib.LinkedList

set_option autoImplicit false

/-! ## The chunks on their way to the parsers -/

section

variable (env : Env)

/-- The chunks of data that `__try_deliver` hands to the parsers. -/
def handedFrom : ℕ → Option ℕ → SpicySink → List Block
  | 0, _, _ => []
  | _ + 1, none, _ => []
  | fuel + 1, some c, s =>
    match s.chunks.heap c with
    | none => []
    | some cell =>
      if cell.val.rseq ≤ s.lastReassemRseq then
        if cell.val.rseq = s.lastReassemRseq then
          match deliverChunk env fuel cell.val { s with
              lastReassemRseq :=
                uint64 (s.lastReassemRseq + sub64 cell.val.rupper cell.val.rseq) } with
          | some (s, true) => cell.val :: handedFrom fuel cell.next s
          | _ => []
        else handedFrom fuel cell.next s
      else []

/-- The chunks handed over at the end of `__new_block`. -/
def handedBehind (fuel : ℕ) (c : ℕ) (s : SpicySink) : List Block :=
  match s.chunks.heap c with
  | none => []
  | some cell =>
    if cell.val.rseq > s.lastReassemRseq ∨ cell.val.rupper ≤ s.lastReassemRseq then []
    else handedFrom env fuel (some c) s

/-- The chunks that `__new_block` hands to the parsers. -/
def handedBlock (fuel : ℕ) (data : Option (List UInt8)) (r len : ℕ) (s : SpicySink) :
    List Block :=
  if len = 0 then []
  else if r = s.curRseq ∧ s.chunks.first = none then
    match data with
    | none => []
    | some d => [⟨r, uint64 (r + len), some d⟩]
  else if uint64 (r + len) ≤ s.trimRseq then []
  else
    match (cutOff s data r).bind fun (r', data) =>
        enqueue env fuel r' len (uint64 (r + len)) data s with
    | some (s, some c) => handedBehind env fuel c s
    | _ => []

/-- `__skip` up to where it looks for data to deliver. -/
def skipTo (fuel : ℕ) (r : ℕ) (s : SpicySink) : Option SpicySink := do
  let s ← reportUndeliveredUpTo env r fuel s.chunks.first s
  let s ← if s.autoTrim then trim env fuel r s else some s
  some (reportSkip env r { s with curRseq := r, lastReassemRseq := r })

def handedSkip (fuel : ℕ) (r : ℕ) (s : SpicySink) : List Block :=
  match skipTo env fuel r s with
  | none => []
  | some s => handedFrom env fuel s.chunks.first s

/-- The chunks of data that one operation hands to the parsers, in order. -/
def handedBy (fuel : ℕ) (op : Op) (s : SpicySink) : List Block :=
  let s := { s with excpt := false }
  match op with
  | .write data seq =>
    if s.initialSeq ≤ seq then
      handedBlock env fuel (some data) (sub64 seq s.initialSeq) data.length s
    else []
  | .append data => handedBlock env fuel (some data) s.curRseq data.length s
  | .gap seq len =>
    if s.initialSeq ≤ seq then handedBlock env fuel none (sub64 seq s.initialSeq) len s else []
  | .skip seq => if s.initialSeq ≤ seq then handedSkip env fuel (sub64 seq s.initialSeq) s else []
  | .trim _ => []
  | .close => []

/-- The chunks of data that a run hands to the parsers, in order. -/
def handedAlong : SpicySink → List Op → List Block
  | _, [] => []
  | s, op :: ops =>
    handedBy env (opFuel s) op s ++
      match perform env (opFuel s) op s with
      | none => []
      | some t => handedAlong t ops

end

/-! ## The log -/

/-- The objects of the connected parsers. -/
def ids (s : SpicySink) : List ℕ :=
  s.head.map ParserState.id

/-- Each of the blocks goes to some of the parsers, to each of them at most once. -/
inductive Hands (ids : List ℕ) : List Block → List (ℕ × List UInt8) → Prop
  | nil : Hands ids [] []
  | cons {b : Block} {bs : List Block} {takers : List ℕ} {rest : List (ℕ × List UInt8)}
      (htakers : takers.Sublist ids) (hrest : Hands ids bs rest) :
      Hands ids (b :: bs) (takers.map (fun id => (id, b.data.getD [])) ++ rest)

theorem Hands.mono {ids ids' : List ℕ} {bs : List Block} {ds : List (ℕ × List UInt8)}
    (h : Hands ids bs ds) (hids : ids.Sublist ids') : Hands ids' bs ds := by
  induction h with
  | nil => exact .nil
  | cons htakers _ ih => exact .cons (htakers.trans hids) ih

theorem Hands.append {ids : List ℕ} {bs bs' : List Block} {ds ds' : List (ℕ × List UInt8)}
    (h : Hands ids bs ds) (h' : Hands ids bs' ds') : Hands ids (bs ++ bs') (ds ++ ds') := by
  induction h with
  | nil => exact h'
  | cons htakers _ ih =>
    rw [List.append_assoc]
    exact .cons htakers ih

/-- The blocks `bs` are handed over from one state to the other, as the log has it. -/
structure Gives (s s' : SpicySink) (bs : List Block) : Prop where
  initialSeq_eq : s'.initialSeq = s.initialSeq
  filter_eq : s.filter = none → s'.filter = none
  ids_sublist : (ids s').Sublist (ids s)
  hands : s.filter = none →
    ∃ ds, deliveries s'.log = deliveries s.log ++ ds ∧ Hands (ids s) bs ds

theorem Gives.trans {s s' s'' : SpicySink} {bs bs' : List Block} (h : Gives s s' bs)
    (h' : Gives s' s'' bs') : Gives s s'' (bs ++ bs') where
  initialSeq_eq := h'.initialSeq_eq.trans h.initialSeq_eq
  filter_eq hfilter := h'.filter_eq (h.filter_eq hfilter)
  ids_sublist := h'.ids_sublist.trans h.ids_sublist
  hands hfilter := by
    obtain ⟨ds, hlog, hds⟩ := h.hands hfilter
    obtain ⟨ds', hlog', hds'⟩ := h'.hands (h.filter_eq hfilter)
    refine ⟨ds ++ ds', ?_, hds.append (hds'.mono h.ids_sublist)⟩
    rw [hlog', hlog, List.append_assoc]

theorem Frame.gives {s s' : SpicySink} (h : Frame s s') : Gives s s' [] where
  initialSeq_eq := h.initialSeq_eq
  filter_eq hfilter := h.filter_eq.trans hfilter
  ids_sublist := by
    unfold ids
    rw [h.head_eq]
  hands _ := ⟨[], by rw [h.deliveries_eq, List.append_nil], .nil⟩

theorem Gives.refl (s : SpicySink) : Gives s s [] :=
  (Frame.refl s).gives

section

variable {env : Env} {s s' : SpicySink}

theorem disconnect_ids (id : ℕ) (head : List ParserState) :
    (disconnect id head).map ParserState.id = head.map ParserState.id := by
  induction head with
  | nil => rfl
  | cons p head ih =>
    unfold disconnect
    split
    · rfl
    · rw [List.map_cons, List.map_cons, ih]

theorem foldl_disconnect_ids (gone : List ℕ) (head : List ParserState) :
    (gone.foldl (fun l id => disconnect id l) head).map ParserState.id =
      head.map ParserState.id := by
  induction gone generalizing head with
  | nil => rfl
  | cons id gone ih => rw [List.foldl_cons, ih, disconnect_ids]

theorem deliverLoop_log {data : List UInt8} {aborted : Bool} (fuel : ℕ) :
    ∀ (i : ℕ) (s : SpicySink), deliverLoop env data fuel i s = some (s', aborted) →
      s'.filter = s.filter ∧ (ids s').Sublist (ids s) ∧
      ∃ takers : List ℕ, takers.Sublist ((ids s).drop i) ∧
        deliveries s'.log = deliveries s.log ++ takers.map fun id => (id, data) := by
  induction fuel with
  | zero =>
    intro i s h
    cases h
  | succ fuel ih =>
    intro i s h
    rw [deliverLoop] at h
    split at h
    · cases h
      exact ⟨rfl, .refl _, [], List.nil_sublist _, by simp⟩
    · rename_i p hp
      split at h
      · exact ih i s h
      split at h
      · obtain ⟨hfilter, hids, takers, htakers, hlog⟩ := ih (i + 1) s h
        refine ⟨hfilter, hids, takers, htakers.trans ?_, hlog⟩
        rw [← List.drop_drop]
        exact List.drop_sublist _ _
      simp only at h
      set head := List.foldl (fun l id => disconnect id l)
        (s.head.set i { p with fed := p.fed ++ [data], resume := false })
        (env.disconnects p.id (p.fed ++ [data])) with hhead
      have hget : (ids s)[i]? = some p.id := by
        simp [ids, hp]
      obtain ⟨hi, hpid⟩ := List.getElem?_eq_some_iff.mp hget
      have hids : head.map ParserState.id = ids s := by
        rw [hhead, foldl_disconnect_ids, List.map_set]
        change (ids s).set i p.id = ids s
        rw [← hpid, List.set_getElem_self]
      have hdrop : (ids s).drop i = p.id :: (ids s).drop (i + 1) := by
        rw [List.drop_eq_getElem_cons hi, hpid]
      have herase : (head.eraseIdx i).map ParserState.id = (ids s).eraseIdx i := by
        rw [← hids, List.eraseIdx_map]
      have hgone : ((head.eraseIdx i).map ParserState.id).Sublist (ids s) := by
        rw [herase]
        exact List.eraseIdx_sublist _ _
      have hrest : ((ids s).eraseIdx i).drop i = (ids s).drop (i + 1) := by
        rw [List.eraseIdx_eq_take_drop_succ, List.drop_append_of_le_length (by simp; omega)]
        simp
      -- the data goes to the parser, and the loop goes on with the parsers behind it
      have htaken : ∀ {t : SpicySink} {j : ℕ}, deliverLoop env data fuel j t = some (s', aborted) →
          t.filter = s.filter → t.log = s.log ++ [Event.deliver p.id data] →
          (ids t).Sublist (ids s) → (ids t).drop j = (ids s).drop (i + 1) →
          s'.filter = s.filter ∧ (ids s').Sublist (ids s) ∧
          ∃ takers : List ℕ, takers.Sublist ((ids s).drop i) ∧
            deliveries s'.log = deliveries s.log ++ takers.map fun id => (id, data) := by
        intro t j h hfilter hlog hsub hbehind
        obtain ⟨hfilter', hids', takers, htakers, hlog'⟩ := ih j t h
        refine ⟨hfilter'.trans hfilter, hids'.trans hsub, p.id :: takers, ?_, ?_⟩
        · rw [hdrop]
          rw [hbehind] at htakers
          exact htakers.cons_cons _
        · rw [hlog', hlog, deliveries_append]
          simp [deliveries]
      split at h
      · have hmod : (head.modify i fun p => { p with resume := true }).map ParserState.id = ids s := by
          rw [← hids]
          refine List.ext_getElem? fun k => ?_
          rw [List.getElem?_map, List.getElem?_map, List.getElem?_modify]
          cases head[k]? with
          | none => rfl
          | some q =>
            simp only [Option.map_some]
            split <;> rfl
        refine htaken h rfl rfl ?_ ?_
        · change (List.map _ _).Sublist _
          rw [hmod]
        · change (List.map _ _).drop _ = _
          rw [hmod]
      · refine htaken h rfl rfl hgone ?_
        change (List.map _ _).drop _ = _
        rw [herase, hrest]
      · refine htaken h rfl rfl hgone ?_
        change (List.map _ _).drop _ = _
        rw [herase, hrest]
      · cases h
        refine ⟨rfl, hgone, [p.id], ?_, ?_⟩
        · rw [hdrop]
          exact (List.nil_sublist _).cons_cons _
        · rw [deliveries_append]
          rfl

theorem finishParser_ids {i : ℕ} (h : finishParser env i s = some s') :
    (ids s').Sublist (ids s) := by
  have hsub : ((s.head.eraseIdx i).map ParserState.id).Sublist (ids s) :=
    (List.eraseIdx_sublist _ _).map _
  obtain ⟨p, -, h⟩ := Option.bind_eq_some_iff.mp h
  split at h
  · split at h <;> cases h <;> exact hsub
  · cases h
    exact hsub

theorem finishDisconnected_log (fuel : ℕ) :
    ∀ s : SpicySink, finishDisconnected env fuel s = some s' →
      s'.filter = s.filter ∧ s'.log = s.log ∧ (ids s').Sublist (ids s) := by
  induction fuel with
  | zero =>
    intro s h
    cases h
  | succ fuel ih =>
    intro s h
    rw [finishDisconnected] at h
    split at h
    · cases h
      exact ⟨rfl, rfl, .refl _⟩
    · obtain ⟨s₁, h₁, h⟩ := Option.bind_eq_some_iff.mp h
      obtain ⟨-, -, hfilter, hlog⟩ := finishParser_parsed h₁
      have hids := finishParser_ids h₁
      obtain ⟨hfilter', hlog', hids'⟩ := ih _ h
      exact ⟨hfilter'.trans hfilter, hlog'.trans hlog, List.Sublist.trans hids' hids⟩

theorem feed_log {fuel : ℕ} {data : List UInt8} (h : feed env fuel data s = some s') :
    s'.filter = s.filter ∧ (ids s').Sublist (ids s) ∧
    ∃ takers : List ℕ, takers.Sublist (ids s) ∧
      deliveries s'.log = deliveries s.log ++ takers.map fun id => (id, data) := by
  have hnone : s.filter = s.filter ∧ (ids s).Sublist (ids s) ∧
      ∃ takers : List ℕ, takers.Sublist (ids s) ∧
        deliveries s.log = deliveries s.log ++ takers.map fun id => (id, data) :=
    ⟨rfl, .refl _, [], List.nil_sublist _, by simp⟩
  unfold feed at h
  simp only at h
  split at h
  · cases h
    exact hnone
  split at h
  · cases h
    exact hnone
  obtain ⟨⟨s₁, aborted⟩, h₁, h⟩ := Option.bind_eq_some_iff.mp h
  obtain ⟨hfilter, hids, takers, htakers, hlog⟩ := deliverLoop_log fuel 0 _ h₁
  simp only at h
  split at h
  · cases h
    exact ⟨hfilter, hids, takers, htakers, hlog⟩
  · obtain ⟨hfilter', hlog', hids'⟩ := finishDisconnected_log fuel s₁ h
    exact ⟨hfilter'.trans hfilter, hids'.trans hids, takers, htakers, by rw [hlog', hlog]⟩

theorem deliverData_gives {fuel : ℕ} {b : Block} {data : List UInt8} (hb : b.data = some data)
    (h : deliverData env fuel data s = some s') : Gives s s' [b] := by
  have hparsed := deliverData_parsed h
  rw [deliverData_eq] at h
  split at h
  · rename_i hfilter
    obtain ⟨hfilter', hids, takers, htakers, hlog⟩ := feed_log h
    refine ⟨hparsed.initialSeq_eq, fun _ => hfilter'.trans hfilter, hids, fun _ => ?_⟩
    refine ⟨takers.map fun id => (id, data), hlog, ?_⟩
    have := Hands.cons (b := b) htakers Hands.nil
    rwa [hb, Option.getD_some, List.append_nil] at this
  · rename_i given hfilter
    have hne : ¬ s.filter = none := by simp [hfilter]
    refine ⟨hparsed.initialSeq_eq, fun hf => absurd hf hne, ?_, fun hf => absurd hf hne⟩
    split at h
    · cases h
      exact .refl _
    · exact (feed_log h).2.1

end

end Hilti.Sink
