import Hilti.Embedded.Appending

/-!
# Appends compose

Any sequence of appends goes through, keeps all chunks, and leaves an object in which walking finds
everything that has been appended, as long as each call is one that goes well where it is made.
-/

namespace Hilti.Embedded

set_option autoImplicit false

variable {ω : Type}

section

variable {b b' : Bytes ω}

/-- An object that can be appended to. -/
structure Good (b : Bytes ω) : Prop where
  last : LastData b
  coherent : Coherent b
  unfrozen : isFrozen b = false
  within : TailWithin b

theorem Good.split (h : Good b) :
    ∃ D d, b = D ++ [d] ∧ d.isObject = false ∧ d.frozen = false ∧ d.Within := by
  obtain ⟨D, d, rfl⟩ : ∃ D d, b = D ++ [d] :=
    ⟨_, _, (List.dropLast_concat_getLast h.last.ne_nil).symm⟩
  refine ⟨D, d, rfl, lastData_split h.last rfl, ?_, (tailWithin_concat D).mp h.within⟩
  exact h.coherent.unfrozen h.unfrozen d (List.mem_append_right D (List.mem_singleton_self d))

theorem Extends.isFrozen (h : Extends b b') (hne : b ≠ []) : isFrozen b' = isFrozen b := by
  obtain ⟨new, heq, -⟩ := h
  obtain ⟨c, cs, rfl⟩ := List.exists_cons_of_ne_nil hne
  rw [List.map_cons, List.cons_append, List.map_eq_cons_iff] at heq
  obtain ⟨c', cs', rfl, hc', -⟩ := heq
  change c'.frozen = c.frozen
  rw [← Chunk.bare_frozen, hc', Chunk.bare_frozen]

theorem Good.extends (h : Good b) {op : Op ω} {e : Option Excpt} (happly : apply b op = some (b', e))
    (hwithin : TailWithin b') : Good b' := by
  have hne := h.last.ne_nil
  have hextends := apply_extends happly
  exact ⟨apply_lastData h.last happly, hextends.coherent hne h.coherent,
    (hextends.isFrozen hne).trans h.unfrozen, hwithin⟩

/-! ## One call -/

theorem appendRawChunk_sequence (h : Good b) {raw : List UInt8} {c : Chunk ω}
    (hc : c.isObject = false) (hbytes : c.bytes = raw) (hmarks : c.marks = .null) :
    ∃ b' e, appendRawChunk b raw c = some (b', e) ∧ TailWithin b' ∧
      sequence b' = (sequence b).append ⟨dataCells raw [], false⟩ := by
  by_cases hnil : raw = []
  · subst hnil
    exact ⟨b, none, if_pos rfl, h.within, (append_nil _).symm⟩
  · obtain ⟨D, d, rfl, -, hd, hdw⟩ := h.split
    have hlen : (D ++ [d]).length - 1 = D.length := by
      rw [List.length_append, List.length_singleton, Nat.add_sub_cancel]
    have hraw : ¬ raw.length = 0 := fun hzero => hnil (List.eq_nil_of_length_eq_zero hzero)
    have hcw : c.Within := by
      rw [Chunk.Within, hmarks]
      exact ⟨(fun h => nomatch h), fun m hm => by cases hm⟩
    obtain ⟨b', hadd, hwithin, hseq⟩ := addChunk_sequence hd hdw hc (by rwa [hbytes]) hcw
    refine ⟨b', none, ?_, hwithin, ?_⟩
    · unfold appendRawChunk
      rw [if_neg hraw, h.unfrozen, if_neg Bool.false_ne_true, hlen, hadd]
      rfl
    · rw [hseq, sequence_single hc, hbytes, hmarks]
      rfl

theorem sequence_empty {other : Bytes ω} (hdata : ∀ c ∈ other, c.isObject = false)
    (hlen : bytesLen other = 0) : sequence other = ⟨[], endMark other⟩ := by
  have hcells : other.flatMap Chunk.cells = [] := by
    refine List.flatMap_eq_nil_iff.mpr fun c hc => ?_
    have hempty : c.bytes = [] := by
      rw [bytesLen_data hdata, List.length_eq_zero_iff, List.flatMap_eq_nil_iff] at hlen
      exact hlen c hc
    rw [Chunk.cells_data (hdata c hc), hempty]
    rfl
  rw [sequence, hcells]

theorem append_sequence (h : Good b) {other : Bytes ω} (hop : StepOk b (.append (some other))) :
    ∃ b' e, append b (some other) = some (b', e) ∧ TailWithin b' ∧
      sequence b' = (sequence b).append (sequence other) := by
  obtain ⟨hdata, hempty, hcopied⟩ := hop
  by_cases hlen : bytesLen other = 0
  · refine ⟨b, none, ?_, h.within, ?_⟩
    · unfold append
      rw [h.unfrozen, if_neg Bool.false_ne_true]
      exact if_pos hlen
    · rw [sequence_empty hdata hlen, hempty hlen, append_nil]
  · obtain ⟨c, hloop, hshape, hbytes, hcw, hseq⟩ := copied_chunk hdata hlen (hcopied hlen)
    obtain ⟨D, d, rfl, -, hd, hdw⟩ := h.split
    have hc : c.isObject = false := by
      rw [hshape]
      rfl
    have hlast : (D ++ [d]).length - 1 = D.length := by
      rw [List.length_append, List.length_singleton, Nat.add_sub_cancel]
    obtain ⟨b', hadd, hwithin, hseq'⟩ := addChunk_sequence hd hdw hc hbytes hcw
    refine ⟨b', none, ?_, hwithin, hseq'.trans (by rw [hseq])⟩
    unfold append
    rw [h.unfrozen, if_neg Bool.false_ne_true]
    dsimp only
    rw [if_neg hlen, hloop, Option.bind_eq_bind, Option.bind_some]
    dsimp only
    rw [← hshape, hlast, hadd]
    rfl

theorem apply_sequence (h : Good b) {op : Op ω} (hop : StepOk b op) :
    ∃ b' e, apply b op = some (b', e) ∧ TailWithin b' ∧
      sequence b' = (sequence b).append op.appended := by
  cases op with
  | append other =>
    cases other with
    | some other => exact append_sequence h hop
    | none =>
      refine ⟨b, some .nullReference, ?_, h.within, (append_nil _).symm⟩
      change append b none = _
      unfold append
      rw [h.unfrozen, if_neg Bool.false_ne_true]
  | appendRaw raw => exact appendRawChunk_sequence h rfl rfl rfl
  | appendRawCopy raw => exact appendRawChunk_sequence h rfl rfl rfl
  | appendObject obj =>
    cases obj with
    | none => exact ⟨b, some .nullReference, rfl, h.within, (append_nil _).symm⟩
    | some obj =>
      obtain ⟨D, d, rfl, -, hd, hdw⟩ := h.split
      have hmark : d.marks.entries.contains (d.len : ℤ) = false := (endMark_last rfl).symm.trans hop
      obtain ⟨b', hadd, hwithin, hseq⟩ := addChunk_object hd hdw hmark obj (D := D)
      exact ⟨b', none, hadd, hwithin, hseq⟩
  | appendMark =>
    obtain ⟨D, d, rfl, hd, -, hdw⟩ := h.split
    obtain ⟨b', hmark, hwithin, hseq⟩ := appendMark_sequence hd hdw (D := D)
    exact ⟨b', none, hmark, hwithin, hseq⟩

end

/-! ## Runs -/

/-- The append functions, one call after the other. -/
def appends (ω : Type) : Lib.Machine (Bytes ω) (Op ω) :=
  ⟨[bytesNew []], fun b op => (apply b op).map Prod.fst⟩

theorem appends_run (ops : List (Op ω)) {b : Bytes ω} (h : Good b)
    (hops : (appends ω).Along StepOk b ops) :
    ∃ b', (appends ω).run b ops = some b' ∧ Good b' ∧ Extends b b' ∧
      sequence b' = ops.foldl (fun s op => s.append op.appended) (sequence b) := by
  induction ops generalizing b with
  | nil => exact ⟨b, rfl, h, Extends.refl b, rfl⟩
  | cons op ops ih =>
    obtain ⟨b₁, e, happly, hwithin, hseq⟩ := apply_sequence h hops.1
    have hnext : (appends ω).next b op = some b₁ := by
      change (apply b op).map Prod.fst = some b₁
      rw [happly]
      rfl
    obtain ⟨b', hrun, hgood, hextends, hseq'⟩ := ih (h.extends happly hwithin) (hops.2 b₁ hnext)
    refine ⟨b', ?_, hgood, (apply_extends happly).trans hextends, ?_⟩
    · rw [Lib.Machine.run_cons, hnext, Option.bind_some, hrun]
    · rw [hseq', hseq]
      rfl

/-- No call fails, no chunk is lost, and everything that has been appended is found. -/
theorem appends_found {b : Bytes ω} (hmade : Made b) (hfrozen : isFrozen b = false)
    (hwithin : TailWithin b) {ops : List (Op ω)} (hops : (appends ω).Along StepOk b ops) :
    ∃ b', (appends ω).run b ops = some b' ∧ Extends b b' ∧
      walk b' = some (ops.foldl (fun s op => s.append op.appended) (sequence b)).items := by
  have hgood : Good b := ⟨made_lastData hmade, made_coherent hmade, hfrozen, hwithin⟩
  obtain ⟨b', hrun, hgood', hextends, hseq⟩ := appends_run ops hgood hops
  refine ⟨b', hrun, hextends, ?_⟩
  rw [walk_eq hgood'.last hgood'.coherent.data, hseq]

/-- Bytes, marks and objects, one of which is behind another object. -/
theorem appends_found_mixed :
    ∃ b', (appends ℕ).run [bytesNew [1]] [.appendMark, .appendRaw [2, 3], .appendObject (some 7),
        .appendObject (some 8), .appendMark, .append (some [bytesNew [4]])] = some b' ∧
      Extends [bytesNew [1]] b' ∧
      walk b' = some [.byte 1, .mark, .byte 2, .byte 3, .object 7, .object 8, .mark, .byte 4] :=
  appends_found (.new [1]) rfl
    ((tailWithin_concat []).mpr ⟨(fun h => nomatch h), fun m hm => by cases hm⟩) (by decide)

/-- An object behind a mark. -/
theorem append_object_fails :
    isFrozen ([bytesNew []] : Bytes ℕ) = false ∧
      (appends ℕ).run [bytesNew []] [.appendMark, .appendObject (some 7)] = none := by
  decide

end Hilti.Embedded
