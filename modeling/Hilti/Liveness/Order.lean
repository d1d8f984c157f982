import Hilti.Liveness.Model

/-!
# The order of the statements

`DepthOrderTraversal` records every statement that can be reached from the bodies, once
and after the successors it leads to for the first time.
-/

namespace Hilti.Liveness

open Hilti.Lib

set_option autoImplicit false

variable {ι : Type} {g : Cfg ι}

/-- From `r` to `r'`, the newly seen statements have been recorded, each once. -/
structure Records (r r' : Recorded ι) : Prop where
  subset : r.done ⊆ r'.done
  new : ∃ new, r'.statements = r.statements ++ new ∧ new.Nodup ∧
    ∀ t, t ∈ new ↔ t ∈ r'.done ∧ t ∉ r.done

theorem Records.refl (r : Recorded ι) : Records r r where
  subset := subset_rfl
  new := ⟨[], by simp, List.nodup_nil, by simp⟩

variable [DecidableEq ι]

theorem Records.trans {r r' r'' : Recorded ι} (h : Records r r') (h' : Records r' r'') :
    Records r r'' := by
  obtain ⟨new, heq, hnodup, hmem⟩ := h.new
  obtain ⟨new', heq', hnodup', hmem'⟩ := h'.new
  refine ⟨h.subset.trans h'.subset, new ++ new', by rw [heq', heq, List.append_assoc], ?_, ?_⟩
  · refine hnodup.append hnodup' fun t ht ht' => ?_
    exact ((hmem' t).mp ht').2 ((hmem t).mp ht).1
  · intro t
    rw [List.mem_append, hmem, hmem']
    constructor
    · rintro (⟨ht, hr⟩ | ⟨ht, hr⟩)
      · exact ⟨h'.subset ht, hr⟩
      · exact ⟨ht, fun hr' => hr (h.subset hr')⟩
    · rintro ⟨ht, hr⟩
      by_cases ht' : t ∈ r'.done
      · exact .inl ⟨ht', hr⟩
      · exact .inr ⟨ht, ht'⟩

theorem foldlM_records {α : Type} {f : Recorded ι → α → Option (Recorded ι)}
    (hf : ∀ r a r', f r a = some r' → Records r r') (l : List α) :
    ∀ r r', l.foldlM f r = some r' → Records r r' := by
  induction l with
  | nil =>
    intro r r' h
    cases h
    exact .refl r
  | cons a l ih =>
    intro r r' h
    rw [List.foldlM_cons] at h
    obtain ⟨r₁, h₁, h⟩ := Option.bind_eq_some_iff.mp h
    exact (hf r a r₁ h₁).trans (ih r₁ r' h)

theorem visit_records (fuel : ℕ) :
    ∀ (s : ι) (r r' : Recorded ι), g.visit fuel s r = some r' → Records r r' := by
  induction fuel with
  | zero => intro s r r' h; cases h
  | succ fuel ih =>
    intro s r r' h
    unfold Cfg.visit depthFirst at h
    by_cases hs : s ∈ r.done
    · rw [if_pos (by simpa using hs)] at h
      cases h
      exact .refl r
    · rw [if_neg (by simpa using hs)] at h
      obtain ⟨r₁, h₁, h⟩ := Option.bind_eq_some_iff.mp h
      cases h₁
      obtain ⟨r₂, h₂, h⟩ := Option.bind_eq_some_iff.mp h
      cases h
      have hrec := foldlM_records (fun r c r' hc => ih c r r' hc) _ _ _ h₂
      obtain ⟨new, heq, hnodup, hmem⟩ := hrec.new
      have hsr : s ∈ r₂.done := hrec.subset (Finset.mem_insert_self s _)
      refine ⟨(Finset.subset_insert s _).trans hrec.subset, new ++ [s], ?_, ?_, ?_⟩
      · show r₂.statements ++ [s] = r.statements ++ (new ++ [s])
        rw [heq, List.append_assoc]
      · refine hnodup.append (List.nodup_singleton s) fun t ht hts => ?_
        obtain rfl := List.mem_singleton.mp hts
        exact ((hmem t).mp ht).2 (Finset.mem_insert_self t _)
      · intro t
        rw [List.mem_append, hmem, List.mem_singleton, Finset.mem_insert, not_or]
        constructor
        · rintro (⟨ht, -, hr⟩ | rfl)
          · exact ⟨ht, hr⟩
          · exact ⟨hsr, hs⟩
        · rintro ⟨ht, hr⟩
          by_cases hts : t = s
          · exact .inr hts
          · exact .inl ⟨ht, hts, hr⟩

theorem visit_traversal (g : Cfg ι) (root : ι) :
    Traversal (fun (r : Recorded ι) s => decide (s ∈ r.done))
      (fun s r => some { r with done := insert s r.done }) g.successors
      (fun s r => { r with statements := r.statements ++ [s] }) root id Recorded.done
      fun _ => True where
  seen_iff r s := decide_eq_true_iff
  children_key s t _ _ h := by rw [show s = t from h]
  enter_spec s r _ _ _ := ⟨_, rfl, trivial, rfl⟩
  leave_spec s r _ := ⟨trivial, rfl⟩

/-- What has been seen is closed under successors and reached from the bodies. -/
structure Seen (g : Cfg ι) (bodies : List ι) (r : Recorded ι) : Prop where
  closed : ∀ s ∈ r.done, ∀ t ∈ g.successors s, t ∈ r.done
  reached : ∀ s ∈ r.done, ∃ b ∈ bodies, Below g.successors b s

theorem Seen.grown {bodies : List ι} {b : ι} {r r' : Recorded ι} (h : Seen g bodies r)
    (hb : b ∈ bodies) (hg : Grown g.successors b id Recorded.done r r') : Seen g bodies r' := by
  constructor
  · intro s hs t ht
    by_cases hr : s ∈ r.done
    · exact hg.subset (h.closed s hr t ht)
    · obtain ⟨q, hq, rfl⟩ := hg.origin s hs hr
      exact hg.closed q hq hs hr t ht
  · intro s hs
    by_cases hr : s ∈ r.done
    · exact h.reached s hr
    · obtain ⟨q, hq, rfl⟩ := hg.origin s hs hr
      exact ⟨b, hb, hq⟩

variable [Fintype ι]

theorem visit_spec {fuel : ℕ} (hf : Fintype.card ι < fuel) (s : ι) (r : Recorded ι) :
    ∃ r', g.visit fuel s r = some r' ∧ Grown g.successors s id Recorded.done r r' ∧
      s ∈ r'.done := by
  obtain ⟨r', h, -, hg, hs⟩ := depthFirst_spec (visit_traversal g s) fuel s r trivial .refl
    ((Finset.card_le_univ _).trans_lt hf)
  exact ⟨r', h, hg, hs⟩

theorem foldlM_visit_spec {fuel : ℕ} (hf : Fintype.card ι < fuel) (bodies l : List ι) :
    ∀ r, Seen g bodies r → (∀ b ∈ l, b ∈ bodies) →
      ∃ r', l.foldlM (fun r s => g.visit fuel s r) r = some r' ∧ Seen g bodies r' ∧
        r.done ⊆ r'.done ∧ ∀ b ∈ l, b ∈ r'.done := by
  induction l with
  | nil => exact fun r h _ => ⟨r, rfl, h, subset_rfl, by simp⟩
  | cons b l ih =>
    intro r h hl
    obtain ⟨r₁, h₁, hg, hb⟩ := visit_spec (g := g) hf b r
    obtain ⟨r₂, h₂, hs₂, hsub, hl₂⟩ := ih r₁ (h.grown (hl b (by simp)) hg)
      fun c hc => hl c (by simp [hc])
    refine ⟨r₂, ?_, hs₂, (hg.subset).trans hsub, ?_⟩
    · rw [List.foldlM_cons, h₁]
      exact h₂
    · intro c hc
      obtain rfl | hc := List.mem_cons.mp hc
      · exact hsub hb
      · exact hl₂ c hc

theorem depthFirstOrder_spec (g : Cfg ι) (bodies : List ι) {fuel : ℕ}
    (hf : Fintype.card ι < fuel) :
    ∃ S : Schedule g, g.depthFirstOrder fuel bodies = some S.statements ∧
      ∀ s, s ∈ S.statements ↔ ∃ b ∈ bodies, Below g.successors b s := by
  obtain ⟨r, hr, hseen, -, hbodies⟩ := foldlM_visit_spec (g := g) hf bodies bodies ⟨∅, []⟩
    ⟨by simp, by simp⟩ fun b hb => hb
  obtain ⟨new, heq, hnodup, hmem⟩ :=
    (foldlM_records (fun r s r' h => visit_records fuel s r r' h) bodies _ _ hr).new
  have hlist : ∀ s, s ∈ r.statements ↔ s ∈ r.done := by
    intro s
    rw [heq, List.nil_append, hmem]
    simp
  refine ⟨⟨r.statements, ?_, ?_⟩, ?_, fun s => ?_⟩
  · rw [heq]
    exact hnodup
  · intro s hs t ht
    exact (hlist t).mpr (hseen.closed s ((hlist s).mp hs) t ht)
  · unfold Cfg.depthFirstOrder
    rw [hr]
    rfl
  · rw [hlist]
    refine ⟨hseen.reached s, ?_⟩
    rintro ⟨b, hb, hbelow⟩
    induction hbelow with
    | refl => exact hbodies b hb
    | tail _ ht ih => exact hseen.closed _ ih _ ht

end Hilti.Liveness
