import Hilti.Justrx.Longest
import Hilti.Lib.Replies
import Hilti.Regexp.Model

/-!
# Matching tokens piece by piece

What a token is, and that all that clients get are answers of matchers that have seen all of the data:
it does not matter how the data is cut into calls and blocks, nor what other matchers do with the same
regular expression in the meantime.

What is not promised is where a token ends that is found in a call with several blocks, for the offset
starts again with a block.  And a call that only says that the data is over accepts just all of it.
-/

namespace Hilti.Regexp

open Hilti.Lib Hilti.Justrx

set_option autoImplicit false

/-! ## Tokens -/

/-- The part of a word that is its token, and the id it has.  Nothing at all is one only where no word
starts with the first character. -/
structure IsToken (Ls : List (Language ℕ)) (firstMatch : Bool) (word v : List ℕ) (aid : ℕ) :
    Prop where
  isPrefix : v <+: word
  sorted : Sorted Ls aid v
  longest : firstMatch = false → ∀ u ∈ anyOf Ls, u <+: word → u.length ≤ v.length
  shortest : firstMatch = true → ∀ u ∈ anyOf Ls, u <+: word → u ≠ [] → v.length ≤ u.length
  blocked : v = [] → ∃ cp rest, word = cp :: rest ∧ ∀ u, cp :: u ∉ anyOf Ls

/-- How a call ends: there may be more data, or not, or there has not been any in it. -/
inductive Ending where
  | more
  | last
  | ended
  deriving DecidableEq

/-- The ending of a call. -/
def endingOf (blocks : List (List ℕ)) (isFrozen : Bool) : Ending :=
  if !isFrozen then .more else if blocks = [] then .ended else .last

/-- What the answers should be, depending on all of the data so far. -/
structure Answers (Ls : List (Language ℕ)) (firstMatch : Bool)
    (answer : List ℕ → Ending → TokenMatch) : Prop where
  found : ∀ word ending, ending ≠ .ended → 0 < (answer word ending).rc →
    ∃ v aid, IsToken Ls firstMatch word v aid ∧ answer word ending = ⟨aid, v.length⟩
  failed : ∀ word ending, ending ≠ .ended → (answer word ending).rc = 0 →
    ∀ u ∈ anyOf Ls, u ≠ [] → ¬u <+: word ∧ ¬word <+: u
  missed : ∀ word, (answer word .last).rc < 0 → ∀ u ∈ anyOf Ls, u ≠ [] → ¬u <+: word
  settled : ∀ word, 0 ≤ (answer word .more).rc →
    ∀ rest ending, ending ≠ .ended → answer (word ++ rest) ending = answer word .more
  ended : ∀ word, (∃ aid, Sorted Ls aid word ∧ answer word .ended = ⟨aid, word.length⟩) ∨
    word ∉ anyOf Ls ∧ (answer word .ended).rc = 0

section

variable {σ : Type} (M : Scanner σ ℕ ℕ) (stuck : σ → Bool) (start : σ)

def scannerAnswer (word : List ℕ) : Ending → TokenMatch
  | .more =>
    let r := M.scan 0 start none word
    ⟨r.2.elim (codeOf 0 r.1) fun s => if stuck s then codeOf (-1) r.1 else -1, stopOf r.1⟩
  | .last =>
    let r := M.scan 0 start none word
    ⟨r.2.elim (codeOf 0 r.1) fun _ => codeOf (-1) r.1, stopOf r.1⟩
  | .ended => ⟨((M.run start word).bind M.out).elim 0 fun aid => aid, word.length⟩

variable {M stuck start} {word : List ℕ} {best : Option (ℕ × ℕ)} {s : σ}

theorem scannerAnswer_stopped (h : M.scan 0 start none word = (best, none)) {ending : Ending}
    (hended : ending ≠ .ended) : scannerAnswer M stuck start word ending = ⟨codeOf 0 best, stopOf best⟩ := by
  cases ending with
  | ended => exact absurd rfl hended
  | more | last =>
    unfold scannerAnswer
    rw [h]
    rfl

theorem scannerAnswer_last (h : M.scan 0 start none word = (best, some s)) :
    scannerAnswer M stuck start word .last = ⟨codeOf (-1) best, stopOf best⟩ := by
  unfold scannerAnswer
  rw [h]
  rfl

theorem scannerAnswer_more (stuck : σ → Bool) (h : M.scan 0 start none word = (best, some s)) :
    scannerAnswer M stuck start word .more =
      ⟨if stuck s then codeOf (-1) best else -1, stopOf best⟩ := by
  unfold scannerAnswer
  rw [h]
  rfl

theorem scannerAnswer_append (h : M.scan 0 start none word = (best, some s))
    (hstuck : ∀ cp, M.step s cp = none) (hisStuck : stuck s = true) (hne : best ≠ none)
    (rest : List ℕ) {ending : Ending} (hended : ending ≠ .ended) :
    scannerAnswer M stuck start (word ++ rest) ending = ⟨codeOf 0 best, stopOf best⟩ := by
  have hbest : (M.scan 0 start none (word ++ rest)).1 = best :=
    Scanner.scan_append_of_stuck h hstuck hne rest
  have hcode : codeOf (-1) best = codeOf 0 best := by
    obtain ⟨b, rfl⟩ := Option.ne_none_iff_exists'.mp hne
    rfl
  cases hscan : M.scan 0 start none (word ++ rest) with
  | mk best' o =>
    rw [hscan] at hbest
    subst hbest
    cases o with
    | none => exact scannerAnswer_stopped hscan hended
    | some s' =>
      cases ending with
      | ended => exact absurd rfl hended
      | last => rw [scannerAnswer_last hscan, hcode]
      | more =>
        have hs : s' = s := by
          cases rest with
          | nil =>
            rw [List.append_nil, h] at hscan
            cases hscan
            rfl
          | cons cp rest =>
            rw [Scanner.scan_append_of_running h, Scanner.scan_cons_none (hstuck cp)] at hscan
            have hnone : none = some s' := congrArg Prod.snd hscan
            cases hnone
        rw [scannerAnswer_more _ hscan, hs, hisStuck, if_pos rfl, hcode]

theorem scannerAnswer_found {ending : Ending} (hended : ending ≠ .ended)
    (hrc : 0 < (scannerAnswer M stuck start word ending).rc) : ∃ aid stop,
    (M.scan 0 start none word).1 = some (aid, stop) ∧
      scannerAnswer M stuck start word ending = ⟨aid, stop⟩ := by
  cases hscan : M.scan 0 start none word with
  | mk best o =>
    have hcode : ∀ {default : ℤ}, default ≤ 0 →
        scannerAnswer M stuck start word ending = ⟨codeOf default best, stopOf best⟩ → ∃ aid stop,
        best = some (aid, stop) ∧ scannerAnswer M stuck start word ending = ⟨aid, stop⟩ := by
      intro default hdefault heq
      rw [heq] at hrc
      cases best with
      | none => exact absurd hrc (not_lt.mpr hdefault)
      | some b => exact ⟨b.1, b.2, rfl, heq⟩
    cases o with
    | none => exact hcode le_rfl (scannerAnswer_stopped hscan hended)
    | some s =>
      cases ending with
      | ended => exact absurd rfl hended
      | last => exact hcode (by decide) (scannerAnswer_last hscan)
      | more =>
        have heq := scannerAnswer_more stuck hscan
        split at heq
        · exact hcode (by decide) heq
        · rw [heq] at hrc
          exact absurd hrc (show ¬(0 : ℤ) < -1 by decide)

theorem scannerAnswer_failed (hpos : ∀ s aid, M.out s = some aid → 0 < aid) {ending : Ending}
    (hended : ending ≠ .ended) (hrc : (scannerAnswer M stuck start word ending).rc = 0) :
    M.scan 0 start none word = (none, none) := by
  cases hscan : M.scan 0 start none word with
  | mk best o =>
    have hbest : ∀ aid stop, best = some (aid, stop) → 0 < aid := by
      intro aid stop heq
      obtain ⟨hnone, -⟩ | ⟨v, i, hsome, hpicks⟩ := Scanner.scan_found (M := M) word 0 start none
      · rw [hscan, heq] at hnone
        cases hnone
      · rw [hscan, heq] at hsome
        cases hsome
        obtain ⟨s', -, hout⟩ := hpicks.out
        exact hpos s' aid hout
    have hcode : ∀ {default : ℤ}, codeOf default best = 0 → best = none ∧ default = 0 := by
      intro default heq
      cases best with
      | none => exact ⟨rfl, heq⟩
      | some b =>
        have hlt := hbest b.1 b.2 rfl
        have hzero : ((b.1 : ℕ) : ℤ) = 0 := heq
        omega
    cases o with
    | none =>
      rw [scannerAnswer_stopped hscan hended] at hrc
      rw [(hcode hrc).1]
    | some s =>
      cases ending with
      | ended => exact absurd rfl hended
      | last =>
        rw [scannerAnswer_last hscan] at hrc
        exact absurd (hcode hrc).2 (by decide)
      | more =>
        rw [scannerAnswer_more _ hscan] at hrc
        dsimp only at hrc
        split at hrc
        · exact absurd (hcode hrc).2 (by decide)
        · exact absurd hrc (by decide)

end

/-! ## Tokens of a set of patterns -/

def tokenAnswer (nfa : Nfa) (g : Group) (firstMatch : Bool) : List ℕ → Ending → TokenMatch :=
  scannerAnswer (nfa.scanner g firstMatch) (fun e => (specTrans nfa e g.zipIdx).isEmpty)
    nfa.initialElems

section

variable {nfa : Nfa} {g : Group} {firstMatch : Bool} {Ls : List (Language ℕ)} {word v : List ℕ}
  {aid : ℕ}

theorem scanner_stuck {e : List Elem} (h : (specTrans nfa e g.zipIdx).isEmpty = true) (cp : ℕ) :
    (nfa.scanner g firstMatch).step e cp = none := by
  change (specFind nfa g (plain cp).passes e).map _ = none
  rw [specFind, List.isEmpty_iff.mp h]
  rfl

theorem scanner_final (e : List Elem) : (nfa.scanner g firstMatch).final e =
    (firstMatch || (specTrans nfa e g.zipIdx).isEmpty) :=
  rfl

theorem isToken_of_picks (hP : Partition nfa g) (h : nfa.Sorts Ls)
    (hpicks : (nfa.scanner g firstMatch).Picks nfa.initialElems word v aid) :
    IsToken Ls firstMatch word v aid where
  isPrefix := hpicks.isPrefix
  sorted := by
    obtain ⟨e, hrun, hout⟩ := hpicks.out
    exact sorted_of_out hP h hrun hout
  longest hfirst u hu hpre := by
    by_contra hlt
    obtain ⟨e, i, hrun, hout⟩ := exists_out_of_mem firstMatch hP h hu
    refine absurd (hpicks.longest (fun s hs cp => scanner_stuck ?_ cp) u hpre (Nat.not_le.mp hlt) e
      hrun) (by rw [hout]; exact Option.some_ne_none i)
    rw [← hs, scanner_final, hfirst, Bool.false_or]
  shortest hfirst u hu hpre hne := by
    by_contra hlt
    obtain ⟨e, i, hrun, hout⟩ := exists_out_of_mem firstMatch hP h hu
    have hshort : u <+: v :=
      List.prefix_of_prefix_length_le hpre hpicks.isPrefix (Nat.not_le.mp hlt).le
    refine absurd (hpicks.shortest (fun s => ?_) u hshort hne (fun heq => ?_) e hrun)
      (by rw [hout]; exact Option.some_ne_none i)
    · rw [scanner_final, hfirst, Bool.true_or]
    · rw [heq] at hlt
      exact hlt le_rfl
  blocked hv := by
    obtain ⟨cp, rest, hword, hstep⟩ := hpicks.blocked hv
    have hrun : (nfa.scanner g firstMatch).run nfa.initialElems [cp] = none := by
      rw [Scanner.run, hstep]
      rfl
    exact ⟨cp, rest, hword, notMem_of_run_none hP h hrun⟩

theorem notMem_of_silent (hP : Partition nfa g) (h : nfa.Sorts Ls)
    (hsilent : (nfa.scanner g firstMatch).Silent nfa.initialElems word) :
    ∀ u ∈ anyOf Ls, u ≠ [] → ¬u <+: word := by
  intro u hu hne hpre
  obtain ⟨e, i, hrun, hout⟩ := exists_out_of_mem firstMatch hP h hu
  rw [hsilent.silent u hpre hne e hrun] at hout
  cases hout

theorem tokenAnswer_spec (hP : Partition nfa g) (h : nfa.Sorts Ls) :
    Answers Ls firstMatch (tokenAnswer nfa g firstMatch) where
  found word ending hended hrc := by
    obtain ⟨aid, stop, hbest, hanswer⟩ := scannerAnswer_found hended hrc
    obtain ⟨hnone, -⟩ | ⟨v, i, hsome, hpicks⟩ :=
      Scanner.scan_found (M := nfa.scanner g firstMatch) word 0 nfa.initialElems none
    · rw [hbest] at hnone
      cases hnone
    · rw [hbest, Nat.zero_add] at hsome
      cases hsome
      exact ⟨v, aid, isToken_of_picks hP h hpicks, hanswer⟩
  failed word ending hended hrc u hu hne := by
    have hscan := scannerAnswer_failed (fun s aid => out_pos h.decides.positive) hended hrc
    obtain ⟨-, hsilent⟩ | ⟨v, i, hsome, -⟩ :=
      Scanner.scan_found (M := nfa.scanner g firstMatch) word 0 nfa.initialElems none
    · refine ⟨notMem_of_silent hP h hsilent u hu hne, fun hpre => ?_⟩
      obtain ⟨rest, rfl⟩ := hpre
      exact notMem_of_run_none hP h (Scanner.run_of_stopped word hscan) rest hu
    · rw [hscan] at hsome
      cases hsome
  missed word hrc := by
    obtain ⟨-, hsilent⟩ | ⟨v, i, hsome, -⟩ :=
      Scanner.scan_found (M := nfa.scanner g firstMatch) word 0 nfa.initialElems none
    · exact notMem_of_silent hP h hsilent
    · exfalso
      cases hscan : (nfa.scanner g firstMatch).scan 0 nfa.initialElems none word with
      | mk best o =>
        rw [hscan] at hsome
        have hbest : best = some (i, 0 + v.length) := hsome
        rw [hbest] at hscan
        unfold tokenAnswer at hrc
        cases o with
        | none =>
          rw [scannerAnswer_stopped hscan (by decide)] at hrc
          exact absurd hrc (Int.natCast_nonneg i).not_gt
        | some e =>
          rw [scannerAnswer_last hscan] at hrc
          exact absurd hrc (Int.natCast_nonneg i).not_gt
  settled word hrc rest ending hended := by
    cases hscan : (nfa.scanner g firstMatch).scan 0 nfa.initialElems none word with
    | mk best o =>
      unfold tokenAnswer at hrc ⊢
      cases o with
      | none =>
        rw [scannerAnswer_stopped (Scanner.scan_append_of_stopped hscan rest) hended,
          scannerAnswer_stopped hscan (by decide)]
      | some e =>
        rw [scannerAnswer_more _ hscan] at hrc ⊢
        dsimp only at hrc
        split at hrc
        · rename_i hstuck
          have hne : best ≠ none := by
            intro hnone
            rw [hnone] at hrc
            exact absurd hrc (by decide)
          rw [scannerAnswer_append hscan (scanner_stuck hstuck) hstuck hne rest hended, if_pos hstuck]
          obtain ⟨b, rfl⟩ := Option.ne_none_iff_exists'.mp hne
          rfl
        · exact absurd hrc (by decide)
  ended word := by
    unfold tokenAnswer scannerAnswer
    cases hrun : (nfa.scanner g firstMatch).run nfa.initialElems word with
    | none => exact .inr ⟨List.append_nil word ▸ notMem_of_run_none hP h hrun [], rfl⟩
    | some e =>
      cases hout : (nfa.scanner g firstMatch).out e with
      | none =>
        refine .inr ⟨fun hmem => ?_, ?_⟩
        · obtain ⟨e', aid, hrun', hout'⟩ := exists_out_of_mem firstMatch hP h hmem
          rw [hrun] at hrun'
          cases hrun'
          rw [hout] at hout'
          cases hout'
        · rw [Option.bind_some, hout]
          rfl
      | some aid =>
        refine .inl ⟨aid, sorted_of_out hP h hrun hout, ?_⟩
        rw [Option.bind_some, hout]
        rfl

end

/-! ## What a matcher has done -/

/-- A matcher that has seen some data and may still find something. -/
structure Live (recurse : Bool) (nfa : Nfa) (g : Group) (firstMatch : Bool) (state : MatchTokenState)
    (seen : List ℕ) : Prop where
  acc : state.acc = 0 ∨ state.acc = -1
  scanned : ∃ e best, (nfa.scanner g firstMatch).scan 0 nfa.initialElems none seen = (best, some e) ∧
    Scans recurse nfa g state.ms e ∧ state.ms.acc = codeOf (-1) best ∧
    ((specTrans nfa e g.zipIdx).isEmpty = true → best = none)

section

variable {recurse : Bool} {nfa : Nfa} {g : Group} {opts : Options} {seen : List ℕ}
  {state : MatchTokenState}

theorem stopOf_le {σ : Type} {M : Scanner σ ℕ ℕ} {s : σ} {best : Option (ℕ × ℕ)} {o : Option σ}
    (h : M.scan 0 s none seen = (best, o)) : stopOf best ≤ seen.length := by
  obtain ⟨hnone, -⟩ | ⟨v, i, hsome, hpicks⟩ := Scanner.scan_found (M := M) seen 0 s none
  · rw [h] at hnone
    rw [show best = none from hnone]
    exact Nat.zero_le _
  · rw [h, Nat.zero_add] at hsome
    rw [show best = some (i, v.length) from hsome]
    exact hpicks.isPrefix.length_le

def lastOr (final : Bool) : Ending :=
  if final then .last else .more

theorem lastOr_ne (final : Bool) : lastOr final ≠ .ended := by
  cases final <;> decide

theorem codeOf_neg {best : Option (ℕ × ℕ)} (h : codeOf (-1) best < 0) : best = none := by
  cases best with
  | none => rfl
  | some b => exact absurd h (Int.natCast_nonneg b.1).not_gt

theorem codeOf_nonneg {best : Option (ℕ × ℕ)} (h : ¬codeOf (-1) best < 0) :
    best ≠ none ∧ codeOf (-1) best = codeOf 0 best := by
  cases best with
  | none => exact absurd (show (-1 : ℤ) < 0 by decide) h
  | some b => exact ⟨Option.some_ne_none b, rfl⟩

/-- What is known after blocks of a call. -/
structure Fed (recurse : Bool) (nfa : Nfa) (g : Group) (firstMatch : Bool) (word : List ℕ)
    (ending : Ending) (ms : MatchState) (r : MatchState × ℤ) : Prop where
  later : Later ms.dfa r.1.dfa
  idle : Idle recurse r.1.dfa
  rc : r.2 = (tokenAnswer nfa g firstMatch word ending).rc
  negative : r.2 < 0 → r.2 = -1
  live : r.2 < 0 → ∀ state : MatchTokenState, (state.acc = 0 ∨ state.acc = -1) →
    Live recurse nfa g firstMatch { state with ms := r.1 } word

/-- The run lemma for the blocks of a call. -/
theorem matchTokenBlocks_spec (hmin : opts.stdMatcher = false) (hP : Partition nfa g)
    {L : Language ℕ} (hd : nfa.Decides L) (final : Bool) (blocks : List (List ℕ)) :
    ∀ {seen : List ℕ} {ms : MatchState} {e : List Elem} {best : Option (ℕ × ℕ)},
      (nfa.scanner g opts.firstMatch).scan 0 nfa.initialElems none seen = (best, some e) →
      Scans recurse nfa g ms e → ms.acc = codeOf (-1) best →
      ((specTrans nfa e g.zipIdx).isEmpty = true → best = none) →
      (blocks = [] → final = true → best = none) →
      ∃ r, matchTokenBlocks opts final blocks ms = some r ∧
        Fed recurse nfa g opts.firstMatch (seen ++ blocks.flatten) (lastOr final) ms r ∧
        (blocks.length = 1 → 0 < r.2 → r.1.offset = ms.offset +
          ((tokenAnswer nfa g opts.firstMatch (seen ++ blocks.flatten) (lastOr final)).stop -
            seen.length)) := by
  induction blocks with
  | nil =>
    intro seen ms e best hscan hscans hacc hstuck hfinal
    rw [List.flatten_nil, List.append_nil]
    refine ⟨(ms, -1), rfl, ⟨.refl _, hscans.idle, ?_, fun _ => rfl, fun _ state hstate =>
      ⟨hstate, e, best, hscan, hscans, hacc, hstuck⟩⟩, fun h => absurd h (by decide)⟩
    unfold tokenAnswer
    cases final with
    | true =>
      rw [show lastOr true = .last from rfl, scannerAnswer_last hscan, hfinal rfl rfl]
      rfl
    | false =>
      rw [show lastOr false = .more from rfl, scannerAnswer_more _ hscan]
      dsimp only
      split
      · rw [hstuck ‹_›]
        rfl
      · rfl
  | cons block blocks ih =>
    intro seen ms e best hscan hscans hacc hstuck _
    set last := final && blocks.isEmpty with hlast
    obtain ⟨r, hr, hlater, hidle, hends⟩ := regexecPartial_scan hmin hP hd.free hd.positive {.bol, .bod}
      (if last then {.eol, .eod} else ∅) last block hscans hacc (stopOf_le hscan)
    have happend : (nfa.scanner g opts.firstMatch).scan 0 nfa.initialElems none (seen ++ block) =
        (nfa.scanner g opts.firstMatch).scan seen.length e best block := by
      rw [Scanner.scan_append_of_running hscan, Nat.zero_add]
    have hrun : matchTokenBlocks opts final (block :: blocks) ms =
        if r.2 < 0 then matchTokenBlocks opts final blocks r.1 else some r := by
      rw [matchTokenBlocks, ← hlast, hr]
      rfl
    rw [hrun, List.flatten_cons, ← List.append_assoc]
    generalize (nfa.scanner g opts.firstMatch).scan seen.length e best block = f at happend hends
    cases hends with
    | @stopped best' hrc hoffset =>
      have hanswer : tokenAnswer nfa g opts.firstMatch (seen ++ block ++ blocks.flatten) (lastOr final) =
          ⟨codeOf 0 best', stopOf best'⟩ :=
        scannerAnswer_stopped (Scanner.scan_append_of_stopped happend _) (lastOr_ne final)
      have hnonneg : ¬r.2 < 0 := by
        rw [hrc]
        cases best' with
        | none => exact lt_irrefl 0
        | some b => exact (Int.natCast_nonneg b.1).not_gt
      rw [if_neg hnonneg, hanswer]
      exact ⟨r, rfl, ⟨hlater, hidle, by rw [hanswer, hrc], fun hlt => absurd hlt hnonneg,
        fun hlt => absurd hlt hnonneg⟩,
        fun _ _ => hoffset⟩
    | @running best' e' hscans' hacc' hoffset hrc =>
      by_cases hneg : r.2 < 0
      · have hcode : (!last && !(specTrans nfa e' g.zipIdx).isEmpty) = false → best' = none := by
          intro hcond
          rw [hrc, hcond, if_neg Bool.false_ne_true] at hneg
          exact codeOf_neg hneg
        obtain ⟨r', hr', hfed, -⟩ := ih happend hscans' hacc'
          (fun hempty => hcode (by rw [hempty, Bool.not_true, Bool.and_false]))
          (fun hnil hfinal => hcode (by rw [hlast, hnil, hfinal]; rfl))
        rw [if_pos hneg]
        refine ⟨r', hr', ⟨hlater.trans hfed.later, hfed.idle, hfed.rc, hfed.negative,
          hfed.live⟩, fun hlen hpos => ?_⟩
        obtain rfl : blocks = [] := List.length_eq_zero_iff.mp (Nat.succ.inj hlen)
        cases hr'
        exact absurd hpos (show ¬(0 : ℤ) < -1 by decide)
      · have hcond : (!last && !(specTrans nfa e' g.zipIdx).isEmpty) = false := by
          by_contra hcond
          rw [hrc, if_pos (Bool.not_eq_false _ ▸ hcond)] at hneg
          exact hneg (by decide)
        rw [hcond, if_neg Bool.false_ne_true] at hrc
        rw [hrc] at hneg
        obtain ⟨hne, hzero⟩ := codeOf_nonneg hneg
        have hanswer : tokenAnswer nfa g opts.firstMatch (seen ++ block ++ blocks.flatten)
            (lastOr final) = ⟨codeOf 0 best', stopOf best'⟩ := by
          cases hempty : (specTrans nfa e' g.zipIdx).isEmpty with
          | true => exact scannerAnswer_append happend (scanner_stuck hempty) hempty hne _ (lastOr_ne final)
          | false =>
            rw [hempty, Bool.not_false, Bool.and_true, Bool.not_eq_false', hlast,
              Bool.and_eq_true] at hcond
            rw [List.isEmpty_iff.mp hcond.2, List.flatten_nil, List.append_nil, hcond.1,
              show lastOr true = .last from rfl, ← hzero]
            exact scannerAnswer_last happend
        have hnonneg : ¬r.2 < 0 := hrc ▸ hneg
        rw [if_neg hnonneg, hanswer]
        exact ⟨r, rfl, ⟨hlater, hidle, by rw [hanswer, hrc, hzero], fun hlt => absurd hlt hnonneg,
          fun hlt => absurd hlt hnonneg⟩, fun _ _ => hoffset⟩

theorem Live.congr {firstMatch : Bool} (h : Live recurse nfa g firstMatch state seen)
    {state' : MatchTokenState} (hacc : state'.acc = 0 ∨ state'.acc = -1)
    (hms : state'.ms = { state.ms with offset := state'.ms.offset }) :
    Live recurse nfa g firstMatch state' seen := by
  obtain ⟨e, best, hscan, hscans, hbest, hstuck⟩ := h.scanned
  refine ⟨hacc, e, best, hscan, hscans.congr ?_ ?_, ?_, hstuck⟩
  all_goals rw [hms]
  exact hbest

theorem Live.more {firstMatch : Bool} (h : Live recurse nfa g firstMatch state seen) :
    (tokenAnswer nfa g firstMatch seen .more).rc = -1 := by
  obtain ⟨e, best, hscan, -, -, hstuck⟩ := h.scanned
  unfold tokenAnswer
  rw [scannerAnswer_more _ hscan]
  dsimp only
  split
  · rw [hstuck ‹_›]
    rfl
  · rfl

theorem jrxCurrentAccept_spec (hmin : opts.stdMatcher = false)
    (h : Live recurse nfa g opts.firstMatch state seen) :
    ∃ r, jrxCurrentAccept opts state.ms = some r ∧ Later state.ms.dfa r.1.dfa ∧
      Idle recurse r.1.dfa ∧ r.1.offset = state.ms.offset ∧ 0 ≤ r.2 ∧
      tokenAnswer nfa g opts.firstMatch seen .ended = ⟨r.2, seen.length⟩ := by
  obtain ⟨e, best, hscan, hscans, -, -⟩ := h.scanned
  obtain ⟨id, hid, he⟩ := hscans.state
  obtain ⟨dfa', s, hget, hidle, hx, hm, -⟩ := dfaGetState_spec hscans.idle he
  refine ⟨({ state.ms with dfa := dfa' }, (s.firstAid.getD 0 : ℕ)), ?_,
    ⟨hx, (dfaGetState_retains hget).1⟩, hidle, rfl, Int.natCast_nonneg _, ?_⟩
  · simp only [jrxCurrentAccept, hmin, Bool.false_eq_true, if_false, hid, Option.bind_eq_bind,
      Option.bind_some, hget]
  · have hout : s.firstAid = (nfa.scanner g opts.firstMatch).out e :=
      firstAid_eq (by rw [hm.accepts_eq, hx.nfa_eq, hscans.nfa_eq])
    unfold tokenAnswer scannerAnswer
    rw [(Scanner.scan_running seen hscan).1, Option.bind_some, hout]
    cases (nfa.scanner g opts.firstMatch).out e with
    | none => rfl
    | some aid => rfl

/-- What `_match_token_advance` returns. -/
structure Advanced (recurse : Bool) (nfa : Nfa) (g : Group) (firstMatch : Bool) (seen : List ℕ)
    (blocks : List (List ℕ)) (final : Bool) (dfa : Dfa) (r : MatchTokenState × ℤ) : Prop where
  later : Later dfa r.1.ms.dfa
  idle : Idle recurse r.1.ms.dfa
  rc : r.2 = (tokenAnswer nfa g firstMatch (seen ++ blocks.flatten) (endingOf blocks final)).rc
  live : r.2 < 0 → Live recurse nfa g firstMatch r.1 (seen ++ blocks.flatten)
  stop : blocks.length ≤ 1 → 0 < r.2 → matchTokenFinish r.1 =
    (tokenAnswer nfa g firstMatch (seen ++ blocks.flatten) (endingOf blocks final)).stop - seen.length

theorem matchTokenAdvance_spec (hmin : opts.stdMatcher = false) (hP : Partition nfa g)
    {L : Language ℕ} (hd : nfa.Decides L) (h : Live recurse nfa g opts.firstMatch state seen)
    (blocks : List (List ℕ)) (final : Bool) :
    ∃ r, matchTokenAdvance opts state blocks final = some r ∧ r.1.re = state.re ∧
      Advanced recurse nfa g opts.firstMatch seen blocks final state.ms.dfa r := by
  have hstart : Live recurse nfa g opts.firstMatch { state with ms := { state.ms with offset := 1 } }
      seen := h.congr h.acc rfl
  have hle : state.acc ≤ 0 := by
    have hacc := h.acc
    omega
  by_cases hblocks : blocks = []
  · subst hblocks
    rw [matchTokenAdvance]
    dsimp only
    rw [if_pos rfl]
    cases final with
    | true =>
      obtain ⟨r, hr, hlater, hidle, hoffset, hnonneg, hanswer⟩ := jrxCurrentAccept_spec hmin hstart
      have hanswer' : tokenAnswer nfa g opts.firstMatch (seen ++ [].flatten) (endingOf [] true) =
          ⟨r.2, seen.length⟩ := by
        rw [List.flatten_nil, List.append_nil]
        exact hanswer
      rw [if_pos rfl, if_pos hle, hr]
      refine ⟨_, rfl, rfl, ⟨hlater, hidle, by rw [hanswer'], fun hlt => absurd hlt hnonneg.not_gt,
        fun _ _ => ?_⟩⟩
      rw [hanswer', matchTokenFinish, hoffset]
      exact (Nat.sub_self _).symm
    | false =>
      rw [if_neg Bool.false_ne_true]
      refine ⟨_, rfl, rfl, ⟨.refl _, ?_, ?_, fun _ => ?_, fun _ hlt =>
        absurd hlt (show ¬(0 : ℤ) < -1 by decide)⟩⟩
      · obtain ⟨e, best, -, hscans, -, -⟩ := h.scanned
        exact hscans.idle
      · rw [List.flatten_nil, List.append_nil]
        exact h.more.symm
      · rw [List.flatten_nil, List.append_nil]
        exact hstart
  · have hending : endingOf blocks final = lastOr final := by
      unfold endingOf lastOr
      rw [if_neg hblocks]
      cases final <;> rfl
    obtain ⟨e, best, hscan, hscans, hbest, hstuck⟩ := hstart.scanned
    obtain ⟨r, hr, hfed, hstop⟩ := matchTokenBlocks_spec hmin hP hd final blocks hscan hscans hbest hstuck
      (fun hnil => absurd hnil hblocks)
    rw [matchTokenAdvance]
    dsimp only at hr ⊢
    rw [if_neg hblocks, hr, Option.bind_eq_bind, Option.bind_some]
    have hrc := hfed.rc
    rw [← hending] at hrc hstop
    by_cases hzero : r.2 = 0
    · rw [if_pos hzero, if_neg hle.not_gt]
      exact ⟨_, rfl, rfl, ⟨hfed.later, hfed.idle, hzero ▸ hrc, fun hlt => absurd hlt (lt_irrefl 0),
        fun _ hlt => absurd hlt (lt_irrefl 0)⟩⟩
    · rw [if_neg hzero]
      by_cases hpos : 0 < r.2
      · rw [if_pos hpos]
        refine ⟨_, rfl, rfl, ⟨hfed.later, hfed.idle, hrc, fun hlt => absurd hlt hpos.not_gt,
          fun hlen _ => ?_⟩⟩
        have hone : blocks.length = 1 :=
          le_antisymm hlen (List.length_pos_iff.mpr hblocks)
        rw [matchTokenFinish, hstop hone hpos]
        exact Nat.add_sub_cancel_left _ _
      · rw [if_neg hpos]
        have hneg : r.2 < 0 := lt_of_le_of_ne (not_lt.mp hpos) hzero
        have hacc : (if state.acc = 0 then -1 else state.acc) = -1 := by
          obtain hacc | hacc := h.acc
          all_goals
            rw [hacc]
            rfl
        rw [hacc]
        exact ⟨_, rfl, rfl, ⟨hfed.later, hfed.idle, hfed.negative hneg ▸ hrc, fun _ =>
          hfed.live hneg { state with acc := -1 } (.inr rfl),
          fun _ hlt => absurd hlt (show ¬(0 : ℤ) < -1 by decide)⟩⟩

end

/-! ## Clients -/

/-- What clients may ask for: a new matcher, more data for one, or to match some data at once. -/
inductive Call where
  | init
  | advance (token : ℕ) (blocks : List (List ℕ)) (isFrozen : Bool)
  | matchToken (blocks : List (List ℕ)) (isFrozen : Bool)

inductive Reply where
  | created
  | failed (e : RegexpException)
  | answered (m : TokenMatch)
  deriving DecidableEq

/-- A regular expression with all the matchers that are in use. -/
structure TokenWorld where
  re : HltRegexp
  tokens : List MatchTokenState

/-- One call; there is none for a matcher that has not been created. -/
def TokenWorld.call (w : TokenWorld) : Call → Option (TokenWorld × Reply)
  | .init => (hltRegexpMatchTokenInit w.re).map fun
    | .error e => (w, .failed e)
    | .ok state => (⟨w.re, w.tokens ++ [state]⟩, .created)
  | .advance token blocks isFrozen => do
    let state ← w.tokens[token]?
    let preg ← w.re.regexp
    (hltRegexpBytesMatchTokenAdvance preg.opts (state.attach preg.dfa) blocks isFrozen).map fun
      | .error e => (w, .failed e)
      | .ok r => (⟨w.re.withDfa r.1.ms.dfa, w.tokens.set token r.1⟩, .answered r.2)
  | .matchToken blocks isFrozen => (hltRegexpBytesMatchToken w.re blocks isFrozen).map fun
    | .error e => (w, .failed e)
    | .ok r => (⟨w.re.withDfa r.1, w.tokens⟩, .answered r.2)

/-- A matcher as clients may think of it: all of its data, and whether it has not answered yet. -/
structure Pending where
  seen : List ℕ
  isOpen : Bool

/-- One call to matchers that give the answers. -/
def serve (answer : List ℕ → Ending → TokenMatch) (tokens : List Pending) :
    Call → Option (List Pending × Reply)
  | .init => some (tokens ++ [⟨[], true⟩], .created)
  | .advance token blocks isFrozen => tokens[token]?.map fun p =>
    let word := p.seen ++ blocks.flatten
    let m := answer word (endingOf blocks isFrozen)
    if p.isOpen then (tokens.set token ⟨word, m.rc < 0⟩,
      .answered ⟨m.rc, if 0 < m.rc then m.stop - p.seen.length else blocks.flatten.length⟩)
    else (tokens, .failed .valueError)
  | .matchToken blocks isFrozen =>
    let m := answer blocks.flatten (endingOf blocks isFrozen)
    some (tokens, .answered ⟨m.rc, if 0 < m.rc then m.stop else 0⟩)

/-- What is promised of a match: not its end, if it has been found in several blocks. -/
def promised (blocks : List (List ℕ)) (m : TokenMatch) : TokenMatch :=
  if 1 < blocks.length ∧ 0 < m.rc then ⟨m.rc, 0⟩ else m

/-- What a client relies on in a reply. -/
def Call.observe : Call → Reply → Reply
  | .advance _ blocks _, .answered m => .answered (promised blocks m)
  | .matchToken blocks _, .answered m => .answered (promised blocks m)
  | _, reply => reply

def TokenWorld.observed (w : TokenWorld) (c : Call) : Option (TokenWorld × Reply) :=
  (w.call c).map fun r => (r.1, c.observe r.2)

def observedServe (answer : List ℕ → Ending → TokenMatch) (tokens : List Pending) (c : Call) :
    Option (List Pending × Reply) :=
  (serve answer tokens c).map fun r => (r.1, c.observe r.2)

/-! ## The simulation -/

/-- What does not change about the DFA. -/
structure Base (recurse : Bool) (nfa : Nfa) (g : Group) (dfa : Dfa) : Prop where
  ready : dfa.Ready recurse nfa
  ccls_eq : dfa.ccls = g
  computed : ∃ s, dfa.slot dfa.initial = .state s

/-- The matcher of the client is the one that is there. -/
structure Tracks (recurse : Bool) (nfa : Nfa) (g : Group) (firstMatch : Bool) (dfa : Dfa)
    (state : MatchTokenState) (p : Pending) : Prop where
  re_eq : state.re = p.isOpen
  live : p.isOpen = true → Live recurse nfa g firstMatch (state.attach dfa) p.seen

structure Serves (recurse : Bool) (nfa : Nfa) (g : Group) (opts : Options) (w : TokenWorld)
    (tokens : List Pending) : Prop where
  num_ne : w.re.num ≠ 0
  noSub : w.re.flags.noSub = true
  regexp : ∃ preg, w.re.regexp = some preg ∧ preg.opts = opts ∧ Base recurse nfa g preg.dfa ∧
    List.Forall₂ (Tracks recurse nfa g opts.firstMatch preg.dfa) w.tokens tokens

section

variable {recurse : Bool} {nfa : Nfa} {g : Group} {opts : Options} {firstMatch : Bool}
  {dfa dfa' : Dfa} {preg : Regex} {w : TokenWorld} {tokens : List Pending}

theorem Base.later (h : Base recurse nfa g dfa) (hlater : Later dfa dfa') (hidle : Idle recurse dfa') :
    Base recurse nfa g dfa' where
  ready := h.ready.extend hidle hlater.extends_
  ccls_eq := hlater.extends_.ccls_eq.trans h.ccls_eq
  computed := by
    obtain ⟨s, hs⟩ := h.computed
    rw [hlater.extends_.initial_eq]
    exact ⟨s, hlater.retains _ s hs⟩

theorem Base.partition (h : Base recurse nfa g dfa) : Partition nfa g :=
  h.ccls_eq ▸ h.ready.partition

theorem Tracks.later {state : MatchTokenState} {p : Pending}
    (h : Tracks recurse nfa g firstMatch dfa state p) (hlater : Later dfa dfa')
    (hidle : Idle recurse dfa') : Tracks recurse nfa g firstMatch dfa' state p where
  re_eq := h.re_eq
  live hopen := by
    obtain ⟨e, best, hscan, hscans, hbest, hstuck⟩ := (h.live hopen).scanned
    exact ⟨(h.live hopen).acc, e, best, hscan, hscans.later hlater hidle, hbest, hstuck⟩

theorem forall₂_set {α β : Type} {R : α → β → Prop} {l : List α} {l' : List β}
    (h : List.Forall₂ R l l') {a : α} {b : β} (hab : R a b) :
    ∀ i, List.Forall₂ R (l.set i a) (l'.set i b) := by
  induction h with
  | nil => exact fun _ => .nil
  | cons h₁ h₂ ih =>
    intro i
    cases i with
    | zero => exact .cons hab h₂
    | succ i => exact .cons h₁ (ih i)

theorem forall₂_getElem? {α β : Type} {R : α → β → Prop} {l : List α} {l' : List β}
    (h : List.Forall₂ R l l') : ∀ i : ℕ, (l[i]? = none ∧ l'[i]? = none) ∨
      ∃ a b, l[i]? = some a ∧ l'[i]? = some b ∧ R a b := by
  induction h with
  | nil => exact fun _ => .inl ⟨rfl, rfl⟩
  | cons h₁ _ ih =>
    intro i
    cases i with
    | zero => exact .inr ⟨_, _, rfl, rfl, h₁⟩
    | succ i => exact ih i

theorem matchTokenInit_spec (firstMatch : Bool) (hmin : preg.opts.stdMatcher = false) (h : Base recurse nfa g preg.dfa) :
    ∃ state, matchTokenInit preg = some state ∧ state.re = true ∧ state.ms.dfa = preg.dfa ∧
      Live recurse nfa g firstMatch state [] := by
  refine ⟨⟨true, ⟨1, 0, preg.dfa, some preg.dfa.initial, 0, [], false, fun _ => noTags,
    fun _ => noTags, -1⟩, 0⟩, ?_, rfl, rfl, .inl rfl, nfa.initialElems, none, rfl, ?_, rfl, fun _ => rfl⟩
  · rw [matchTokenInit, matchStateInit, hmin]
    rfl
  · obtain ⟨s, hs⟩ := h.computed
    exact ⟨⟨h.ready.idle, h.ready.nfa_eq, h.ccls_eq, preg.dfa.initial, rfl, h.ready.initial⟩, s,
      congrArg some hs⟩

theorem HltRegexp.forTokens_eq {α : Type} {re : HltRegexp} (hnum : re.num ≠ 0)
    (hsub : re.flags.noSub = true) (hpreg : re.regexp = some preg) {f : Regex → Option α} {a : α}
    (hf : f preg = some a) : re.forTokens f = some (.ok a) := by
  rw [HltRegexp.forTokens, if_neg hnum, hsub, Bool.not_true, if_neg Bool.false_ne_true, hpreg,
    Option.bind_eq_bind, Option.bind_some, hf]
  rfl

theorem Serves.withDfa (h : Serves recurse nfa g opts w tokens) (hpreg : w.re.regexp = some preg)
    (hlater : Later preg.dfa dfa') (hidle : Idle recurse dfa') :
    Serves recurse nfa g opts ⟨w.re.withDfa dfa', w.tokens⟩ tokens := by
  obtain ⟨preg', hpreg', hopts, hbase, htokens⟩ := h.regexp
  rw [hpreg] at hpreg'
  cases hpreg'
  refine ⟨h.num_ne, h.noSub, { preg with dfa := dfa' }, ?_, hopts, hbase.later hlater hidle,
    htokens.imp fun state p ht => ht.later hlater hidle⟩
  rw [HltRegexp.withDfa, hpreg]
  rfl

theorem Serves.set (token : ℕ) {state : MatchTokenState} {p : Pending}
    (h : Serves recurse nfa g opts w tokens) (hpreg : w.re.regexp = some preg)
    (ht : Tracks recurse nfa g opts.firstMatch preg.dfa state p) :
    Serves recurse nfa g opts ⟨w.re, w.tokens.set token state⟩ (tokens.set token p) := by
  obtain ⟨preg', hpreg', hopts, hbase, htokens⟩ := h.regexp
  rw [hpreg] at hpreg'
  cases hpreg'
  exact ⟨h.num_ne, h.noSub, preg, hpreg, hopts, hbase, forall₂_set htokens ht token⟩

theorem Serves.elim (h : Serves recurse nfa g opts w tokens) : ∃ preg, w.re.regexp = some preg ∧
    preg.opts = opts ∧ Base recurse nfa g preg.dfa ∧
    List.Forall₂ (Tracks recurse nfa g opts.firstMatch preg.dfa) w.tokens tokens ∧
    ∀ {α : Type} {f : Regex → Option α} {a : α}, f preg = some a →
      w.re.forTokens f = some (.ok a) := by
  obtain ⟨preg, hpreg, hopts, hbase, htokens⟩ := h.regexp
  exact ⟨preg, hpreg, hopts, hbase, htokens, HltRegexp.forTokens_eq h.num_ne h.noSub hpreg⟩

theorem serves_init (hmin : opts.stdMatcher = false) (h : Serves recurse nfa g opts w tokens) :
    SameReply (Serves recurse nfa g opts) (w.observed .init)
      (observedServe (tokenAnswer nfa g opts.firstMatch) tokens .init) := by
  obtain ⟨preg, hpreg, rfl, hbase, htokens, hfor⟩ := h.elim
  obtain ⟨state, hstate, hre, hdfa, hlive⟩ := matchTokenInit_spec preg.opts.firstMatch hmin
    hbase
  have hinit : hltRegexpMatchTokenInit w.re = some (.ok state) := hfor hstate
  refine .inr ⟨⟨w.re, w.tokens ++ [state]⟩, tokens ++ [⟨[], true⟩], .created, ?_, rfl, h.num_ne,
    h.noSub, preg, hpreg, rfl, hbase, List.rel_append htokens (.cons ⟨hre, fun _ => ?_⟩ .nil)⟩
  · rw [TokenWorld.observed, TokenWorld.call, hinit]
    rfl
  · exact hlive.congr hlive.acc (by rw [MatchTokenState.attach, ← hdfa])

theorem promised_eq {blocks : List (List ℕ)} {m m' : TokenMatch} (hrc : m.rc = m'.rc)
    (hneg : m.rc ≤ 0 → m.stop = m'.stop)
    (hstop : blocks.length ≤ 1 → 0 < m.rc → m.stop = m'.stop) :
    promised blocks m = promised blocks m' := by
  unfold promised
  rw [hrc]
  split
  · rfl
  · rename_i hcond
    have heq : m.stop = m'.stop := by
      by_cases hpos : 0 < m.rc
      · exact hstop (Nat.not_lt.mp fun hlt => hcond ⟨hlt, hrc ▸ hpos⟩) hpos
      · exact hneg (not_lt.mp hpos)
    cases m
    cases m'
    rw [TokenMatch.mk.injEq]
    exact ⟨hrc, heq⟩

theorem serves_matchToken (hmin : opts.stdMatcher = false) {L : Language ℕ} (hd : nfa.Decides L)
    (h : Serves recurse nfa g opts w tokens) (blocks : List (List ℕ)) (isFrozen : Bool) :
    SameReply (Serves recurse nfa g opts) (w.observed (.matchToken blocks isFrozen))
      (observedServe (tokenAnswer nfa g opts.firstMatch) tokens (.matchToken blocks isFrozen)) := by
  obtain ⟨preg, hpreg, rfl, hbase, htokens, hfor⟩ := h.elim
  obtain ⟨state, hstate, -, hdfa, hlive⟩ := matchTokenInit_spec preg.opts.firstMatch hmin
    hbase
  obtain ⟨r, hr, -, hadv⟩ := matchTokenAdvance_spec hmin hbase.partition hd hlive blocks isFrozen
  have hmatch : hltRegexpBytesMatchToken w.re blocks isFrozen = some (.ok (r.1.ms.dfa,
      ⟨r.2, if 0 < r.2 then matchTokenFinish r.1 else 0⟩)) := by
    apply hfor
    rw [hstate, Option.bind_eq_bind, Option.bind_some, hr]
    rfl
  refine .inr ⟨⟨w.re.withDfa r.1.ms.dfa, w.tokens⟩, tokens, _, ?_, rfl,
    h.withDfa hpreg (hdfa ▸ hadv.later) hadv.idle⟩
  have hrc := hadv.rc
  have hstop := hadv.stop
  rw [List.nil_append] at hrc hstop
  rw [TokenWorld.observed, TokenWorld.call, hmatch]
  refine congrArg (fun m => some (_, Reply.answered m)) (promised_eq hrc (fun hle => ?_)
    fun hlen hpos => ?_)
  · dsimp only at hle ⊢
    rw [if_neg hle.not_gt, if_neg (hrc ▸ hle.not_gt)]
  · dsimp only at hpos ⊢
    rw [if_pos hpos, if_pos (hrc ▸ hpos)]
    exact hstop hlen hpos

theorem serves_advance (hmin : opts.stdMatcher = false) {L : Language ℕ} (hd : nfa.Decides L)
    (h : Serves recurse nfa g opts w tokens) (token : ℕ) (blocks : List (List ℕ)) (isFrozen : Bool) :
    SameReply (Serves recurse nfa g opts) (w.observed (.advance token blocks isFrozen))
      (observedServe (tokenAnswer nfa g opts.firstMatch) tokens (.advance token blocks isFrozen)) := by
  obtain ⟨preg, hpreg, rfl, hbase, htokens, -⟩ := h.elim
  obtain ⟨hnone, hnone'⟩ | ⟨state, p, hstate, hp, htrack⟩ := forall₂_getElem? htokens token
  · refine .inl ⟨?_, ?_⟩
    · rw [TokenWorld.observed, TokenWorld.call, hnone]
      rfl
    · rw [observedServe, serve, hnone']
      rfl
  cases hopen : p.isOpen with
  | false =>
    have hfailed : hltRegexpBytesMatchTokenAdvance preg.opts (state.attach preg.dfa) blocks isFrozen =
        some (.error .valueError) := by
      unfold hltRegexpBytesMatchTokenAdvance
      rw [show (state.attach preg.dfa).re = false from htrack.re_eq.trans hopen]
      rfl
    refine .inr ⟨w, tokens, .failed .valueError, ?_, ?_, h⟩
    · simp only [TokenWorld.observed, TokenWorld.call, hstate, hpreg, Option.bind_eq_bind,
        Option.bind_some, hfailed, Option.map_some]
      rfl
    · simp only [observedServe, serve, hp, Option.map_some, hopen]
      rfl
  | true =>
    obtain ⟨r, hr, hre, hadv⟩ := matchTokenAdvance_spec hmin hbase.partition hd (htrack.live hopen) blocks
      isFrozen
    have hre' : r.1.re = true := hre.trans (htrack.re_eq.trans hopen)
    obtain ⟨state', m, hmatch, hdfa, htrack', hm⟩ : ∃ state' m,
        hltRegexpBytesMatchTokenAdvance preg.opts (state.attach preg.dfa) blocks isFrozen =
          some (.ok (state', m)) ∧ state'.ms.dfa = r.1.ms.dfa ∧
        Tracks recurse nfa g preg.opts.firstMatch r.1.ms.dfa state'
          ⟨p.seen ++ blocks.flatten, decide (r.2 < 0)⟩ ∧
        m = ⟨r.2, if 0 < r.2 then matchTokenFinish r.1 else blocks.flatten.length⟩ := by
      unfold hltRegexpBytesMatchTokenAdvance
      rw [show (state.attach preg.dfa).re = true from htrack.re_eq.trans hopen, hr, Bool.not_true,
        if_neg Bool.false_ne_true, Option.bind_eq_bind, Option.bind_some]
      by_cases hnonneg : 0 ≤ r.2
      · rw [if_pos hnonneg, decide_eq_false hnonneg.not_gt]
        exact ⟨_, _, rfl, rfl, ⟨rfl, fun hlt => (nomatch hlt)⟩, rfl⟩
      · have hneg : r.2 < 0 := not_le.mp hnonneg
        rw [if_neg hnonneg, decide_eq_true hneg, if_neg hneg.not_gt]
        exact ⟨_, _, rfl, rfl, ⟨hre', fun _ => hadv.live hneg⟩, rfl⟩
    have hpreg' : (w.re.withDfa r.1.ms.dfa).regexp = some { preg with dfa := r.1.ms.dfa } := by
      rw [HltRegexp.withDfa, hpreg]
      rfl
    have hserves := (h.withDfa hpreg hadv.later hadv.idle).set token hpreg' htrack'
    refine .inr ⟨_, _, .answered (promised blocks m), ?_, ?_, hserves⟩
    · simp only [TokenWorld.observed, TokenWorld.call, hstate, hpreg, Option.bind_eq_bind,
        Option.bind_some, hmatch, Option.map_some, hdfa]
      rfl
    · simp only [observedServe, serve, hp, Option.map_some, hopen, if_true, ← hadv.rc]
      refine congrArg (fun m => some (_, Reply.answered m)) (promised_eq ?_ (fun hle => ?_)
        fun hlen hpos => ?_)
      · rw [hm]
      · rw [hm, if_neg (not_lt.mpr hle), if_neg (not_lt.mpr hle)]
      · rw [hm, if_pos hpos, if_pos hpos]
        exact (hadv.stop hlen hpos).symm

theorem serves_step (hmin : opts.stdMatcher = false) {L : Language ℕ} (hd : nfa.Decides L)
    (h : Serves recurse nfa g opts w tokens) (c : Call) :
    SameReply (Serves recurse nfa g opts) (w.observed c)
      (observedServe (tokenAnswer nfa g opts.firstMatch) tokens c) := by
  cases c with
  | init => exact serves_init hmin h
  | advance token blocks isFrozen => exact serves_advance hmin hd h token blocks isFrozen
  | matchToken blocks isFrozen => exact serves_matchToken hmin hd h blocks isFrozen

end

/-- The words of the patterns of a set. -/
noncomputable def languages (patterns : List Pattern) : List (Language ℕ) :=
  patterns.map fun pattern => pattern.language below

/-- The patterns are ones that can be compiled, and have no assertions. -/
def Compilable (neg : Bool) (patterns : List Pattern) : Prop :=
  patterns ≠ [] ∧ ∀ pattern ∈ patterns, pattern.AssertionFree ∧ pattern.Regular neg

section

variable {neg : Bool} {flags : Flags} {patterns : List Pattern}

theorem hltRegexpCompileSet_spec (flags : Flags) (h : Compilable neg patterns) :
    ∃ nfa : Nfa, nfa.Sorts (patterns.map (Pattern.searched (!flags.noSub))) ∧ ∃ n, ∀ fuel ≥ n,
      ∃ preg maxTag, hltRegexpCompileSet fuel (hltRegexpNew flags) patterns =
          some (.ok ⟨patterns.length, flags, some preg⟩) ∧
        preg.opts = flags.cflags.options maxTag ∧ Base false nfa preg.dfa.ccls preg.dfa := by
  have hflags : flags.cflags.Supported := ⟨rfl, rfl, rfl⟩
  obtain ⟨nfa, hsorts, n, hn⟩ := jrxRegset_spec hflags h.1 h.2
  refine ⟨nfa, hsorts, n, fun fuel hfuel => ?_⟩
  obtain ⟨preg, hcompile, hready, maxTag, hopts⟩ := hn fuel hfuel
  obtain ⟨set, hset, hfinal⟩ := Option.bind_eq_some_iff.mp hcompile
  have hcomputed : ∃ s, preg.dfa.slot preg.dfa.initial = .state s := by
    obtain ⟨nfa', -, hfinal⟩ := Option.bind_eq_some_iff.mp hfinal
    obtain ⟨dfa, hdfa, hfinal⟩ := Option.bind_eq_some_iff.mp hfinal
    cases hfinal
    exact dfaFromNfa_computed hdfa
  refine ⟨preg, maxTag, ?_, hopts, hready, rfl, hcomputed⟩
  rw [hltRegexpCompileSet, hltRegexpNew, if_neg (not_not.mpr rfl), Option.bind_eq_bind, hset,
    Option.bind_some, hfinal]
  rfl

end

theorem compilable_pair : Compilable false [.codepoint 97, .concat (.codepoint 97) (.codepoint 98)] := by
  refine ⟨List.cons_ne_nil _ _, fun pattern hpattern => ?_⟩
  have ha : (97 : UInt32).toNat < charMax := by decide
  have hb : (98 : UInt32).toNat < charMax := by decide
  obtain rfl | hpattern := List.mem_cons.mp hpattern
  · exact ⟨trivial, ha⟩
  · obtain rfl := List.mem_singleton.mp hpattern
    exact ⟨⟨trivial, trivial⟩, ha, hb⟩

end Hilti.Regexp
