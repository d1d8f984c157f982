import Mathlib.Data.List.Induction
import Mathlib.Logic.Function.Basic
import Hilti.Lib.Packed

/-!
# Hook groups

The model of `libhilti/hook.c`.  Which groups are enabled is kept in an array of words of 32 bits,
which is extended on demand; the masks have 64 bits.  Calls are made one after the other, as the lock
makes them where there are several threads.  Groups are not negative, which is an assertion.
-/

namespace Hilti.Hooks

open Hilti.Lib

set_option autoImplicit false

/-! ## The functions -/

/-- `__hlt_hook_state`; `size` is the length of the array. -/
structure HookState where
  state : List (BitVec 32)

/-- `__hlt_hooks_init`. -/
def hooksInit : HookState :=
  ⟨[]⟩

def groupBit (group : ℕ) : BitVec 64 :=
  1#64 <<< (group - group / 32 * 32)

/-- A word is extended to 64 bits before the operation, and cut off after it. -/
def withGroup (enabled : BitVec 8) (bit : BitVec 64) (word : BitVec 32) : BitVec 32 :=
  if enabled ≠ 0 then (word.signExtend 64 ||| bit).setWidth 32
  else (word.signExtend 64 &&& ~~~bit).setWidth 32

/-- The array with a place for word `n`; the default is enabled. -/
def grow (state : List (BitVec 32)) (n : ℕ) : List (BitVec 32) :=
  if n ≥ state.length then state ++ List.replicate (n + 1 - state.length) (BitVec.allOnes 32)
  else state

/-- `hlt_hook_group_enable`. -/
def hookGroupEnable (s : HookState) (group : ℕ) (enabled : BitVec 8) : HookState :=
  ⟨(grow s.state (group / 32)).modify (group / 32) (withGroup enabled (groupBit group))⟩

/-- `hlt_hook_group_is_enabled`; there is no state before `__hlt_hooks_init`. -/
def hookGroupIsEnabled (s : Option HookState) (group : ℕ) : Bool :=
  match s.bind fun s => s.state[group / 32]? with
  | none => true
  | some word => word.signExtend 64 &&& groupBit group != 0

/-- A call of `hlt_hook_group_enable`. -/
abbrev Call := ℕ × BitVec 8

def perform (s : HookState) (call : Call) : HookState :=
  hookGroupEnable s call.1 call.2

/-! ## Masks -/

theorem groupBit_getLsbD (group : ℕ) {j : ℕ} (hj : j < 64) :
    (groupBit group).getLsbD j = decide (j = group % 32) := by
  have hmod : group - group / 32 * 32 = group % 32 := by omega
  rw [groupBit, hmod, BitVec.getLsbD_shiftLeft, BitVec.getLsbD_one]
  have hlt := Nat.mod_lt group (show 0 < 32 by decide)
  simp only [hj, decide_true, Bool.true_and]
  by_cases hjg : j = group % 32
  · simp [hjg]
  · simp [hjg]
    omega

theorem signExtend_getLsbD (word : BitVec 32) {j : ℕ} (hj : j < 32) :
    (word.signExtend 64).getLsbD j = word.getLsbD j := by
  rw [BitVec.getLsbD_signExtend, if_pos hj, decide_eq_true (by omega), Bool.true_and]

theorem withGroup_getLsbD (enabled : BitVec 8) (group : ℕ) (word : BitVec 32) {j : ℕ} (hj : j < 32) :
    (withGroup enabled (groupBit group) word).getLsbD j =
      if j = group % 32 then decide (enabled ≠ 0) else word.getLsbD j := by
  have hbit := groupBit_getLsbD group (show j < 64 by omega)
  unfold withGroup
  split
  · rename_i hon
    rw [BitVec.getLsbD_setWidth, BitVec.getLsbD_or, signExtend_getLsbD word hj, hbit,
      decide_eq_true hj, Bool.true_and, decide_eq_true hon]
    split <;> simp_all
  · rename_i hoff
    rw [BitVec.getLsbD_setWidth, BitVec.getLsbD_and, BitVec.getLsbD_not, signExtend_getLsbD word hj,
      hbit, decide_eq_true hj, Bool.true_and, decide_eq_false hoff]
    split <;> simp_all
    omega

theorem masked_ne_zero (group : ℕ) (word : BitVec 32) :
    (word.signExtend 64 &&& groupBit group != 0) = word.getLsbD (group % 32) := by
  have hlt := Nat.mod_lt group (show 0 < 32 by decide)
  cases hword : word.getLsbD (group % 32) with
  | true =>
    apply bne_iff_ne.mpr
    intro hzero
    have hbit := congrArg (BitVec.getLsbD · (group % 32)) hzero
    simp [signExtend_getLsbD word hlt, groupBit_getLsbD group (show group % 32 < 64 by omega),
      hword] at hbit
  | false =>
    apply bne_eq_false_iff_eq.mpr
    apply BitVec.eq_of_getLsbD_eq
    intro j hj
    rw [BitVec.getLsbD_and, groupBit_getLsbD group hj, show (0 : BitVec 64).getLsbD j = false by simp]
    by_cases hjg : j = group % 32
    · rw [hjg, signExtend_getLsbD word hlt, hword, Bool.false_and]
    · rw [decide_eq_false hjg, Bool.and_false]

/-! ## Switches -/

theorem isEnabled_eq (s : HookState) (g : ℕ) :
    hookGroupIsEnabled (some s) g = Packed.flag true s.state g := by
  unfold hookGroupIsEnabled Packed.flag
  rw [Option.bind_some]
  cases s.state[g / 32]? with
  | none => rfl
  | some word => exact masked_ne_zero g word

theorem grow_flag (state : List (BitVec 32)) (n g : ℕ) :
    Packed.flag true (grow state n) g = Packed.flag true state g := by
  unfold grow
  split
  · apply Packed.flag_extend
    · intro j hj
      rw [BitVec.getLsbD_allOnes, decide_eq_true hj]
    · decide
  · rfl

theorem lt_grow_length (state : List (BitVec 32)) (n : ℕ) : n < (grow state n).length := by
  unfold grow
  split
  · rw [List.length_append, List.length_replicate]
    omega
  · omega

theorem perform_isEnabled (s : HookState) (call : Call) (g : ℕ) :
    hookGroupIsEnabled (some (perform s call)) g =
      Function.update (hookGroupIsEnabled (some s)) call.1 (decide (call.2 ≠ 0)) g := by
  rw [isEnabled_eq, perform, hookGroupEnable]
  rw [Packed.flag_modify_one true _ (by decide) (lt_grow_length _ _)
    fun word j hj => withGroup_getLsbD call.2 call.1 word hj]
  rw [grow_flag, ← isEnabled_eq, Function.update_apply]

def switches (calls : List Call) : ℕ → Bool :=
  calls.foldl (fun on call => Function.update on call.1 (decide (call.2 ≠ 0))) fun _ => true

theorem run_isEnabled (calls : List Call) :
    hookGroupIsEnabled (some (calls.foldl perform hooksInit)) = switches calls := by
  induction calls using List.reverseRecOn with
  | nil => rfl
  | append_singleton calls call ih =>
    funext g
    rw [switches, List.foldl_append, List.foldl_append, List.foldl_cons, List.foldl_nil,
      perform_isEnabled, ih]
    rfl

theorem eq_or_before {calls before after : List Call} {call last : Call}
    (h : calls ++ [call] = before ++ last :: after) :
    (after = [] ∧ calls = before ∧ call = last) ∨
      ∃ rest, after = rest ++ [call] ∧ calls = before ++ last :: rest := by
  induction after using List.reverseRecOn with
  | nil =>
    obtain ⟨hcalls, hcall⟩ := List.append_inj' h rfl
    exact Or.inl ⟨rfl, hcalls, List.singleton_inj.mp hcall⟩
  | append_singleton rest other _ =>
    rw [← List.cons_append, ← List.append_assoc] at h
    obtain ⟨hcalls, hcall⟩ := List.append_inj' h rfl
    exact Or.inr ⟨rest, by rw [List.singleton_inj.mp hcall], hcalls⟩

theorem switches_iff (calls : List Call) (g : ℕ) : switches calls g = true ↔
    (∀ call ∈ calls, call.1 ≠ g) ∨ ∃ before enabled after,
      calls = before ++ (g, enabled) :: after ∧ (∀ call ∈ after, call.1 ≠ g) ∧ enabled ≠ 0 := by
  induction calls using List.reverseRecOn with
  | nil =>
    apply iff_of_true rfl
    left
    intro call hcall
    exact absurd hcall List.not_mem_nil
  | append_singleton calls call ih =>
    have hstep : switches (calls ++ [call]) g =
        if g = call.1 then decide (call.2 ≠ 0) else switches calls g := by
      rw [switches, List.foldl_append, List.foldl_cons, List.foldl_nil, Function.update_apply]
      rfl
    have hmem : call ∈ calls ++ [call] := List.mem_append_right calls List.mem_cons_self
    rw [hstep]
    by_cases hg : g = call.1
    · rw [if_pos hg, decide_eq_true_iff]
      constructor
      · intro hon
        right
        exact ⟨calls, call.2, [], by rw [hg], by simp, hon⟩
      · intro h
        cases h with
        | inl hnone => exact absurd hg.symm (hnone call hmem)
        | inr hlast =>
          obtain ⟨before, enabled, after, hcalls, hafter, hon⟩ := hlast
          cases eq_or_before hcalls with
          | inl hend =>
            rw [hend.2.2]
            exact hon
          | inr hmore =>
            obtain ⟨rest, hrest, _⟩ := hmore
            rw [hrest] at hafter
            exact absurd hg.symm (hafter call (List.mem_append_right rest List.mem_cons_self))
    · rw [if_neg hg, ih]
      constructor
      · intro h
        cases h with
        | inl hnone =>
          left
          intro other hother
          cases List.mem_append.mp hother with
          | inl hcalls => exact hnone other hcalls
          | inr hone =>
            rw [List.mem_singleton.mp hone]
            exact Ne.symm hg
        | inr hlast =>
          obtain ⟨before, enabled, after, hcalls, hafter, hon⟩ := hlast
          right
          refine ⟨before, enabled, after ++ [call], by rw [hcalls]; simp, ?_, hon⟩
          intro other hother
          cases List.mem_append.mp hother with
          | inl hafter' => exact hafter other hafter'
          | inr hone =>
            rw [List.mem_singleton.mp hone]
            exact Ne.symm hg
      · intro h
        cases h with
        | inl hnone =>
          left
          intro other hother
          exact hnone other (List.mem_append_left [call] hother)
        | inr hlast =>
          obtain ⟨before, enabled, after, hcalls, hafter, hon⟩ := hlast
          cases eq_or_before hcalls with
          | inl hend => exact absurd (congrArg Prod.fst hend.2.2).symm hg
          | inr hmore =>
            obtain ⟨rest, hrest, hbefore⟩ := hmore
            right
            refine ⟨before, enabled, rest, hbefore, ?_, hon⟩
            intro other hother
            apply hafter other
            rw [hrest]
            exact List.mem_append_left [call] hother

/-- After any calls, a group is enabled unless the last call for it, if there is one, disabled it. -/
theorem groups_independent (calls : List Call) (g : ℕ) :
    hookGroupIsEnabled (some (calls.foldl perform hooksInit)) g = true ↔
      (∀ call ∈ calls, call.1 ≠ g) ∨ ∃ before enabled after,
        calls = before ++ (g, enabled) :: after ∧ (∀ call ∈ after, call.1 ≠ g) ∧ enabled ≠ 0 := by
  rw [run_isEnabled]
  exact switches_iff calls g

end Hilti.Hooks
