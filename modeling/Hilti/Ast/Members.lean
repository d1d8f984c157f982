import Hilti.Ast.Links

/-!
# Members that denote a child

A parent registers a `node_ptr` member with `addChild`, so that it shares the cell with the list of
childs.  `replace` adds the new node at the end of the list, under a cell of its own, and assigns it
to the old cell, which is no longer in the list.  So members follow the first replacement of a
position, but not the next one, and the new node takes the last position.
-/

namespace Hilti.Ast

set_option autoImplicit false

variable {ν : Type} [DecidableEq ν]

namespace Heap

variable {h : Heap ν} {p q c x n : ν} {i k : ℕ}

/-- The nodes of the list of childs. -/
def contents (h : Heap ν) (p : ν) : List (Option ν) :=
  (h.childs p).map h.cell

/-- The nodes with `x` replaced by `n`. -/
def substitute (x n : ν) (l : List (Option ν)) : List (Option ν) :=
  l.map fun c => if c = some x then some n else c

/-- Behind the first `x` there are `x` and `n` only. -/
def Trailing (x n : ν) (l : List (Option ν)) : Prop :=
  ∃ a t, l = a ++ t ∧ some x ∉ a ∧ ∀ c ∈ t, c = some x ∨ c = some n

/-! ## Moving the first of trailing nodes to the end -/

section

variable {l : List (Option ν)}

theorem substitute_trailing {t : List (Option ν)} (h : ∀ c ∈ t, c = some x ∨ c = some n) :
    substitute x n t = List.replicate t.length (some n) := by
  rw [List.eq_replicate_iff, substitute, List.length_map]
  refine ⟨rfl, fun c hc => ?_⟩
  obtain ⟨d, hd, rfl⟩ := List.mem_map.mp hc
  rcases h d hd with rfl | rfl
  · exact if_pos rfl
  · exact ite_self _

theorem Trailing.move (h : Trailing x n l) (hi : l[i]? = some (some x)) :
    Trailing x n (l.eraseIdx i ++ [some n]) ∧
      substitute x n (l.eraseIdx i ++ [some n]) = substitute x n l := by
  obtain ⟨a, t, rfl, ha, ht⟩ := h
  have hle : a.length ≤ i := by
    by_contra hlt
    rw [List.getElem?_append_left (Nat.not_le.mp hlt)] at hi
    exact ha (List.mem_of_getElem? hi)
  rw [List.getElem?_append_right hle] at hi
  have hmem : ∀ c ∈ t.eraseIdx (i - a.length) ++ [some n], c = some x ∨ c = some n := by
    intro c hc
    rcases List.mem_append.mp hc with hold | hnew
    · exact ht c (List.mem_of_mem_eraseIdx hold)
    · exact .inr (List.mem_singleton.mp hnew)
  have hlength : (t.eraseIdx (i - a.length) ++ [some n]).length = t.length := by
    have hlt := (List.getElem?_eq_some_iff.mp hi).1
    rw [List.length_append, List.length_eraseIdx_of_lt hlt, List.length_singleton]
    omega
  rw [List.eraseIdx_append_of_length_le hle, List.append_assoc]
  refine ⟨⟨a, _, rfl, ha, hmem⟩, ?_⟩
  have hmoved := substitute_trailing hmem
  rw [substitute] at hmoved ⊢
  rw [List.map_append, hmoved, hlength, substitute, List.map_append]
  exact congrArg _ (substitute_trailing ht).symm

theorem substitute_of_not_mem (h : some x ∉ l) : substitute x n l = l := by
  rw [substitute]
  nth_rewrite 2 [← List.map_id l]
  apply List.map_congr_left
  intro c hc
  have hne : c ≠ some x := by
    rintro rfl
    exact h hc
  exact if_neg hne

end

/-! ## A round of `replace` -/

theorem contents_replaced_self (hinv : Inv h) (hi : (h.childs p)[i]? = some k)
    (hown : h.Unshared p k) (x n : ν) :
    (h.replaced x n p i k).contents p = (h.contents p).eraseIdx i ++ [some n] := by
  have hlt := hinv.lt (List.mem_of_getElem? hi)
  have hgone := not_mem_replaced hinv hi hown x n p
  rw [childs_replaced x hi, if_pos rfl, List.mem_append, not_or] at hgone
  rw [contents, contents, childs_replaced x hi, if_pos rfl, List.map_append, List.map_singleton,
    cell_replaced_fresh h x n p i hlt, List.eraseIdx_map]
  congr 1
  apply List.map_congr_left
  intro j hj
  have hjk : j ≠ k := by
    rintro rfl
    exact hgone.1 hj
  exact cell_replaced h x n p i hjk (hinv.lt (List.mem_of_mem_eraseIdx hj))

theorem contents_replaced_other (hinv : Inv h) (hi : (h.childs p)[i]? = some k)
    (hown : h.Unshared p k) (x n : ν) (hq : q ≠ p) :
    (h.replaced x n p i k).contents q = h.contents q := by
  rw [contents, contents, childs_replaced x hi, if_neg hq]
  apply List.map_congr_left
  intro j hj
  have hjk : j ≠ k := by
    rintro rfl
    exact hown.2 q hq hj
  exact cell_replaced h x n p i hjk (hinv.lt hj)

def Follows (h : Heap ν) (x n : ν) (k : ℕ) : Prop :=
  h.cell k = some n ∨ h.cell k = some x ∧ ∃ p, k ∈ h.childs p

theorem Follows.replaced (hi : (h.childs p)[i]? = some k)
    {j : ℕ} (hj : j < h.fresh) (hfollows : h.Follows x n j) :
    (h.replaced x n p i k).Follows x n j := by
  by_cases hjk : j = k
  · subst hjk
    left
    show Function.update (((h.newPtr n).addChild p h.fresh).unlinked p i x).cell j (some n) j = _
    rw [Function.update_self]
  · rw [Follows, cell_replaced h x n p i hjk hj]
    refine hfollows.imp_right fun ⟨hcell, q, hq⟩ => ⟨hcell, q, ?_⟩
    rw [childs_replaced x hi]
    by_cases hqp : q = p
    · rw [if_pos hqp]
      apply List.mem_append_left
      have hcount := count_eraseIdx hi j
      rw [if_neg (Ne.symm hjk), Nat.add_zero] at hcount
      rw [← List.count_pos_iff, ← hcount, List.count_pos_iff]
      exact hqp ▸ hq
    · rwa [if_neg hqp]

theorem replaceLoop_contents {scope : ν → Bool} (hne : n ≠ x) (hall : ∀ p, scope p = true) :
    ∀ {fuel : ℕ} {h h' : Heap ν}, Inv h → h.OwnCells x scope →
      (∀ p, Trailing x n (h.contents p)) → replaceLoop x n scope fuel h = some h' →
      (∀ p, h'.contents p = substitute x n (h.contents p)) ∧
        ∀ k < h.fresh, h.Follows x n k → h'.cell k = some n
  | fuel + 1, h, h', hinv, hown, htrail, hrun => by
    rw [replaceLoop] at hrun
    cases hfind : h.findLink x scope with
    | none =>
      rw [hfind] at hrun
      obtain rfl := Option.some.inj hrun
      have hgone : ∀ p, ∀ k ∈ h.childs p, h.cell k ≠ some x := by
        intro p k hk hc
        exact hinv.not_mem_parents hfind (hall p) (hinv.mem_parents hk hc)
      refine ⟨fun p => (substitute_of_not_mem fun hmem => ?_).symm, fun k _ hfollows => ?_⟩
      · obtain ⟨k, hk, hc⟩ := List.mem_map.mp hmem
        exact hgone p k hk hc
      · exact hfollows.resolve_right fun hkept => hkept.2.elim fun p hk => hgone p k hk hkept.1
    | some link =>
      obtain ⟨p, i⟩ := link
      obtain ⟨-, hscope, k, hi, hc⟩ := findLink_some hfind
      have hk := hown p hscope k (List.mem_of_getElem? hi) hc
      have hmove := (htrail p).move (i := i)
        (by rw [contents, List.getElem?_map, hi, Option.map_some, hc])
      rw [hfind] at hrun
      dsimp only at hrun
      rw [replaceAt_eq hinv hi hc, Option.bind_some] at hrun
      have htrail' : ∀ q, Trailing x n ((h.replaced x n p i k).contents q) := by
        intro q
        by_cases hq : q = p
        · subst hq
          rw [contents_replaced_self hinv hi hk]
          exact hmove.1
        · rw [contents_replaced_other hinv hi hk x n hq]
          exact htrail q
      obtain ⟨hcontents, hcells⟩ := replaceLoop_contents hne hall (hinv.replaced hi hc hk n)
        (hown.replaced hinv hi hk hne) htrail' hrun
      refine ⟨fun q => ?_, fun j hj hfollows => ?_⟩
      · rw [hcontents q]
        by_cases hq : q = p
        · subst hq
          rw [contents_replaced_self hinv hi hk]
          exact hmove.2
        · rw [contents_replaced_other hinv hi hk x n hq]
      · have hfresh : h.fresh ≤ (h.replaced x n p i k).fresh := by
          show h.fresh ≤ ((h.newPtr n).addChild p h.fresh).fresh
          rw [added_eq]
          exact Nat.le_succ _
        exact hcells j (Nat.lt_of_lt_of_le hj hfresh) (hfollows.replaced hi hj)

theorem replace_contents (hinv : Inv h) (hne : n ≠ x) (hown : h.OwnCells x (inScope none))
    (htrail : ∀ p, Trailing x n (h.contents p)) {h' : Heap ν}
    (hrun : h.replace x n none = some h') :
    (∀ p, p ≠ x → h'.contents p = substitute x n (h.contents p)) ∧
      ∀ k < h.fresh, h.Follows x n k → h'.cell k = some n := by
  obtain ⟨h₁, hloop, hinv₁, -⟩ := replaceLoop_spec hne hinv hown (Nat.lt_succ_self _)
  obtain ⟨h₂, hunlink, hcell, hchilds, -, -⟩ := unlinked_childs hinv₁ x
  rw [replace, if_neg hne, hloop, Option.bind_some, if_pos rfl, hunlink] at hrun
  obtain rfl := Option.some.inj hrun
  obtain ⟨hcontents, hcells⟩ := replaceLoop_contents hne (fun _ => by simp [inScope]) hinv hown
    htrail hloop
  refine ⟨fun p hp => ?_, fun k hk hfollows => ?_⟩
  · rw [← hcontents p, contents, contents, childs_setChilds, if_neg hp, cell_setChilds, hcell,
      hchilds]
  · rw [cell_setChilds, hcell]
    exact hcells k hk hfollows

end Heap

/-! ## Runs -/

/-- The members that are registered after an operation; a parent that removes a child gives up its
members that denote it. -/
def register (h : Heap ν) (members : List (ν × ℕ)) : Op ν → List (ν × ℕ)
  | .newPtr _ => members
  | .addChild p k => if (h.cell k).isSome then (p, k) :: members else members
  | .removeChild p c => members.filter fun m => ¬ (m.1 = p ∧ h.cell m.2 = some c)
  | .removeAt p i => members.filter fun m => ¬ (m.1 = p ∧ (h.childs p)[i]? = some m.2)
  | .removeFromParents x => members.filter fun m => h.cell m.2 ≠ some x
  | .replace _ _ _ => members
  | .destroy x => members.filter fun m => ¬ (m.1 = x ∨ h.cell m.2 = some x)

/-- The replacement of a node is seen by all members, and takes its positions. -/
def Seen (h : Heap ν) (members : List (ν × ℕ)) (h' : Heap ν) : Op ν → Prop
  | .replace x n none => n ≠ x →
      (∀ m ∈ members, h.cell m.2 = some x → h'.cell m.2 = some n) ∧
        ∀ p, p ≠ x → h'.contents p = Heap.substitute x n (h.contents p)
  | _ => True

/-- In a run every replacement is. -/
def AllSeen : Heap ν → List (ν × ℕ) → List (Op ν) → Prop
  | _, _, [] => True
  | h, members, op :: ops => op.Valid h →
      ∃ h', op.run h = some h' ∧ Seen h members h' op ∧ AllSeen h' (register h members op) ops

/-- Members that denote a replaced node still share an entry, and the node stands at the end of the
lists. -/
def SeenIf (h : Heap ν) (members : List (ν × ℕ)) : Op ν → Prop
  | .replace x n none => n ≠ x →
      (∀ m ∈ members, h.cell m.2 = some x → ∃ p, m.2 ∈ h.childs p) ∧
        ∀ p, Heap.Trailing x n (h.contents p)
  | _ => True

def AllSeenIf : Heap ν → List (ν × ℕ) → List (Op ν) → Prop
  | _, _, [] => True
  | h, members, op :: ops => op.Meets h ∧ SeenIf h members op ∧
      ∀ h', op.run h = some h' → AllSeenIf h' (register h members op) ops

theorem op_seen {h h' : Heap ν} (hinv : h.Inv) {members : List (ν × ℕ)} {op : Op ν}
    (hmeets : op.Meets h) (hif : SeenIf h members op) (hrun : op.run h = some h') :
    Seen h members h' op := by
  match op with
  | .newPtr _ | .addChild _ _ | .removeChild _ _ | .removeAt _ _ | .removeFromParents _
  | .replace _ _ (some _) | .destroy _ => exact trivial
  | .replace x n none =>
    intro hne
    obtain ⟨hshare, htrail⟩ := hif hne
    obtain ⟨hcontents, hcells⟩ := Heap.replace_contents hinv hne (hmeets hne) htrail hrun
    refine ⟨fun m hm hc => ?_, hcontents⟩
    obtain ⟨p, hp⟩ := hshare m hm hc
    exact hcells m.2 (hinv.lt hp) (.inr ⟨hc, p, hp⟩)

theorem run_seen : ∀ {ops : List (Op ν)} {h : Heap ν} {members : List (ν × ℕ)}, h.Inv →
    AllSeenIf h members ops → AllSeen h members ops
  | [], _, _, _, _ => trivial
  | op :: ops, h, members, hinv, ⟨hmeets, hif, hrest⟩ => by
    intro hvalid
    obtain ⟨h', hrun, hinv', -⟩ := op_spec hinv hvalid hmeets
    exact ⟨h', hrun, op_seen hinv hmeets hif hrun, run_seen hinv' (hrest h' hrun)⟩

/-- **A replacement is visible everywhere and keeps its place in every run in which the replaced
positions have not been replaced before and are the last ones.** -/
theorem replacement_seen (ops : List (Op ν)) (h : AllSeenIf Heap.initial [] ops) :
    AllSeen Heap.initial [] ops :=
  run_seen inv_initial h

/-- The only child of a node is replaced. -/
theorem replacement_seen_one :
    AllSeen (Heap.initial : Heap ℕ) [] [.newPtr 1, .addChild 0 0, .replace 1 2 none] := by
  apply replacement_seen
  refine ⟨trivial, trivial, fun h₁ hrun₁ => ?_⟩
  obtain rfl := Option.some.inj hrun₁
  refine ⟨trivial, trivial, fun h₂ hrun₂ => ?_⟩
  obtain rfl := Option.some.inj hrun₂
  have hchilds : ∀ q, (((Heap.initial : Heap ℕ).newPtr 1).addChild 0 0).childs q =
      if q = 0 then [0] else [] := fun q => Function.update_apply _ _ _ _
  refine ⟨fun _ p _ k hk hc => ?_, fun _ => ⟨fun m hm _ => ⟨0, ?_⟩, fun p => ?_⟩,
    fun _ _ => trivial⟩
  · rw [hchilds] at hk
    by_cases hp : p = 0
    · subst hp
      rw [if_pos rfl, List.mem_singleton] at hk
      subst hk
      refine ⟨by decide, fun q hq => ?_⟩
      rw [hchilds, if_neg hq]
      exact List.not_mem_nil
    · rw [if_neg hp] at hk
      cases hk
  · obtain rfl := List.mem_singleton.mp hm
    rw [hchilds]
    exact List.mem_singleton_self 0
  · refine ⟨[], _, rfl, List.not_mem_nil, fun c hc => .inl ?_⟩
    obtain ⟨k, hk, rfl⟩ := List.mem_map.mp hc
    rw [hchilds] at hk
    by_cases hp : p = 0
    · rw [if_pos hp] at hk
      rw [List.mem_singleton.mp hk]
      decide
    · rw [if_neg hp] at hk
      cases hk

/-- The same position is replaced twice: the member still denotes the first replacement. -/
theorem twice_not_seen :
    ¬ AllSeen (Heap.initial : Heap ℕ) []
      [.newPtr 1, .addChild 0 0, .replace 1 2 none, .replace 2 3 none] := by
  intro h
  obtain ⟨h₁, hrun₁, -, h⟩ := h trivial
  obtain rfl := Option.some.inj hrun₁
  obtain ⟨h₂, hrun₂, -, h⟩ := h trivial
  obtain rfl := Option.some.inj hrun₂
  obtain ⟨h₃, hrun₃, -, h⟩ := h trivial
  obtain ⟨h₄, hrun₄, hseen, -⟩ := h trivial
  have hcells : ((Op.replace 1 2 none).run (((Heap.initial : Heap ℕ).newPtr 1).addChild 0 0)).bind
      (fun h => ((Op.replace 2 3 none).run h).map fun h' => (h.cell 0, h'.cell 0)) =
        some (some 2, some 2) := by decide
  rw [hrun₃, Option.bind_some, hrun₄, Option.map_some] at hcells
  have hpair := Prod.mk.inj (Option.some.inj hcells)
  have hthree := (hseen (by decide)).1 (0, 0) (List.mem_singleton_self _) hpair.1
  exact absurd (hpair.2.symm.trans hthree) (by decide)

end Hilti.Ast
