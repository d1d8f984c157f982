import Hilti.Embedded.Linking

/-!
# Cloning bytes

The loop of `hlt_bytes_clone_init` goes through if no chunk it links to is frozen, no marks have
been freed, and no mark has to move past an object.  The chunks it makes are those of the
original, with offsets that count on from the first one.
-/

namespace Hilti.Embedded

set_option autoImplicit false

variable {ω : Type}

/-- The marks that are copied. -/
def Marks.live (marks : Marks) : List ℤ :=
  marks.entries.filter (0 ≤ ·)

/-- No mark is so far beyond its chunk that it is one of the next object, or beyond that. -/
def MarksInside : Bytes ω → Prop
  | [] => True
  | c :: cs =>
    (cs.any Chunk.isObject → ∀ m ∈ c.marks.live, m < bytesLen (c :: cs)) ∧ MarksInside cs

instance MarksInside.decidable : (b : Bytes ω) → Decidable (MarksInside b)
  | [] => isTrue trivial
  | _ :: cs =>
    have := MarksInside.decidable cs
    inferInstanceAs (Decidable ((_ → _) ∧ _))

def Chunk.plain (c : Chunk ω) (offset : ℕ) : Chunk ω :=
  match c.body with
  | .data bytes _ _ => ⟨false, offset, .data bytes .null false⟩
  | .object obj => ⟨false, offset, .object obj⟩

/-- The chunks of a copy from offset `n` on. -/
def rebuilt : ℕ → Bytes ω → Bytes ω
  | _, [] => []
  | n, c :: cs => c.plain n :: rebuilt (n + c.len) cs

def plains (b : Bytes ω) : Bytes ω :=
  b.map fun c => c.plain c.offset

/-! ## One chunk -/

section

variable {c d : Chunk ω}

@[simp] theorem Chunk.plain_setMarks (c : Chunk ω) (marks : Marks) (n : ℕ) :
    (c.setMarks marks).plain n = c.plain n := by
  obtain ⟨frozen, offset, body⟩ := c
  cases body <;> rfl

@[simp] theorem Chunk.plain_receive (c : Chunk ω) (l : List ℤ) (n : ℕ) :
    (c.receive l).plain n = c.plain n :=
  c.plain_setMarks _ n

@[simp] theorem Chunk.plain_moved (c : Chunk ω) (n : ℕ) : c.moved.plain n = c.plain n := by
  rw [Chunk.moved]
  split
  · exact c.plain_setMarks _ n
  · rfl

@[simp] theorem Chunk.plain_behind (c : Chunk ω) (n : ℕ) : (d.behind c).plain n = c.plain n :=
  rfl

@[simp] theorem Chunk.moved_offset (c : Chunk ω) : c.moved.offset = c.offset := by
  rw [Chunk.moved]
  split
  · exact c.setMarks_offset _
  · rfl

@[simp] theorem Chunk.moved_frozen (c : Chunk ω) : c.moved.frozen = c.frozen := by
  rw [Chunk.moved]
  split
  · exact c.setMarks_frozen _
  · rfl

@[simp] theorem Chunk.receive_offset (c : Chunk ω) (l : List ℤ) :
    (c.receive l).offset = c.offset :=
  c.setMarks_offset _

theorem Marks.kept_eq_entries {marks : Marks} (h : ∀ m ∈ marks.entries, 0 ≤ m) :
    marks.kept = marks.entries := by
  cases marks with
  | null => rfl
  | freed => rfl
  | array l =>
    have h : ∀ n ∈ Embedded.entries l, 0 ≤ n := h
    change Embedded.kept l = Embedded.entries l
    induction l with
    | nil => rfl
    | cons x l ih =>
      by_cases hx : x = -1
      · subst hx
        rfl
      · have hnonneg : 0 ≤ x := h x (by simp [Embedded.entries, hx])
        have hrest : ∀ n ∈ Embedded.entries l, 0 ≤ n := fun n hn =>
          h n (by
            rw [Embedded.entries, List.takeWhile_cons_of_pos (by simpa using hx)]
            exact List.mem_cons_of_mem x hn)
        rw [Embedded.kept, Embedded.entries, List.takeWhile_cons_of_pos (by simpa using hnonneg),
          List.takeWhile_cons_of_pos (by simpa using hx)]
        exact congrArg (List.cons x) (ih hrest hrest)

theorem Marks.entries_receive {marks : Marks} {l : List ℤ} (hmarks : ∀ m ∈ marks.entries, 0 ≤ m)
    (hl : ∀ m ∈ l, 0 ≤ m) : (marks.receive l).entries = marks.entries ++ l := by
  rw [Marks.receive]
  split
  · rename_i hnil
    rw [hnil, List.append_nil]
  · rw [Marks.kept_eq_entries hmarks]
    exact entries_of_nonneg fun m hm => (List.mem_append.mp hm).elim (hmarks m) (hl m)

theorem copyMarks_null {marks : Marks} (h : marks ≠ .freed) :
    ∃ marks', copyMarks .null marks 0 = some marks' ∧ marks' ≠ .freed ∧
      marks'.entries = marks.live := by
  cases marks with
  | freed => exact absurd rfl h
  | null => exact ⟨.null, rfl, (fun h => nomatch h), rfl⟩
  | array l =>
    have hmap : (((entries l).filter (0 ≤ ·)).map (· + 0)) = (Marks.array l).live := by
      simp [Marks.live, Marks.entries]
    refine ⟨.array (Marks.array l).live, ?_, (fun h => nomatch h), ?_⟩
    · rw [← hmap]
      rfl
    · exact entries_of_nonneg fun m hm => of_decide_eq_true (List.mem_filter.mp hm).2

theorem cloneChunk_data (hc : c.isObject = false) (hmarks : c.marks ≠ .freed) :
    ∃ c', cloneChunk c = some c' ∧ c'.isObject = false ∧ c'.frozen = false ∧
      (∀ n, c'.plain n = c.plain n) ∧ c'.len = c.len ∧ c'.marks ≠ .freed ∧
      c'.marks.entries = c.marks.live := by
  obtain ⟨frozen, offset, body⟩ := c
  cases body with
  | object obj => cases hc
  | data bytes marks toFree =>
    obtain ⟨marks', heq, halive, hentries⟩ := copyMarks_null hmarks
    refine ⟨⟨false, 0, .data bytes marks' false⟩, ?_, rfl, rfl, fun _ => rfl, rfl, halive,
      hentries⟩
    have heq : copyMarks .null marks 0 = some marks' := heq
    rw [cloneChunk]
    dsimp only
    rw [heq]
    rfl

theorem cloneChunk_freed (hmarks : c.marks = .freed) : cloneChunk c = none := by
  obtain ⟨frozen, offset, body⟩ := c
  cases body with
  | object obj => cases hmarks
  | data bytes marks toFree =>
    have hmarks : marks = .freed := hmarks
    rw [hmarks]
    rfl

theorem cloneChunk_object (hc : c.isObject = true) :
    ∃ c', cloneChunk c = some c' ∧ c'.isObject = true ∧ c'.frozen = false ∧
      (∀ n, c'.plain n = c.plain n) ∧ c'.len = 0 ∧ c'.marks = .null := by
  obtain ⟨frozen, offset, body⟩ := c
  cases body with
  | data bytes marks toFree => cases hc
  | object obj => exact ⟨bytesNewObject obj, rfl, rfl, rfl, fun _ => rfl, rfl, rfl⟩

theorem Chunk.len_object (hc : c.isObject = true) : c.len = 0 := by
  obtain ⟨frozen, offset, body⟩ := c
  cases body with
  | data bytes marks toFree => cases hc
  | object obj => rfl

theorem Chunk.marks_object (hc : c.isObject = true) : c.marks = .null := by
  obtain ⟨frozen, offset, body⟩ := c
  cases body with
  | data bytes marks toFree => cases hc
  | object obj => rfl

end

/-! ## The loop -/

/-- The loop goes through behind a chunk of length `len` with marks `l`. -/
structure LoopOk (l : List ℤ) (len : ℕ) (cs : Bytes ω) : Prop where
  alive : ∀ c ∈ cs, c.marks ≠ .freed
  ahead : cs.any Chunk.isObject → ∀ m ∈ l, m < len + bytesLen cs
  inside : MarksInside cs

theorem loopOk_data {c : Chunk ω} {cs : Bytes ω} {l : List ℤ} {len : ℕ}
    (hc : c.isObject = false) :
    LoopOk l len (c :: cs) ↔
      c.marks ≠ .freed ∧ LoopOk (c.marks.live ++ overflow len l) c.len cs := by
  have hlen : bytesLen (c :: cs) = c.len + bytesLen cs := by
    rw [bytesLen, hc]
    rfl
  have hany : (c :: cs).any Chunk.isObject = cs.any Chunk.isObject := by
    rw [List.any_cons, hc, Bool.false_or]
  constructor
  · rintro ⟨halive, hahead, hfirst, hinside⟩
    rw [hany, hlen] at hahead
    rw [hlen] at hfirst
    refine ⟨halive c List.mem_cons_self, fun c' hc' => halive c' (List.mem_cons_of_mem c hc'),
      fun hobj m hm => ?_, hinside⟩
    rcases List.mem_append.mp hm with hm | hm
    · have hlt := hfirst hobj m hm
      omega
    · obtain ⟨n, hn, rfl⟩ := List.mem_map.mp hm
      have hlt := hahead hobj n (List.mem_filter.mp hn).1
      omega
  · rintro ⟨hc', halive, hahead, hinside⟩
    refine ⟨List.forall_mem_cons.mpr ⟨hc', halive⟩, fun hobj m hm => ?_, fun hobj m hm => ?_,
      hinside⟩
    · rw [hany] at hobj
      rw [hlen]
      by_cases hle : (len : ℤ) ≤ m
      · have hlt := hahead hobj (m - len) (List.mem_append_right _
          (List.mem_map.mpr ⟨m, List.mem_filter.mpr ⟨hm, decide_eq_true hle⟩, rfl⟩))
        omega
      · omega
    · rw [hlen]
      have hlt := hahead hobj m (List.mem_append_left _ hm)
      omega

theorem loopOk_object {c : Chunk ω} {cs : Bytes ω} {l : List ℤ} {len : ℕ}
    (hc : c.isObject = true) :
    LoopOk l len (c :: cs) ↔ overflow len l = [] ∧ LoopOk [] 0 cs := by
  have hlen : bytesLen (c :: cs) = 0 := by
    rw [bytesLen, hc]
    rfl
  constructor
  · rintro ⟨halive, hahead, -, hinside⟩
    refine ⟨?_, fun c' hc' => halive c' (List.mem_cons_of_mem c hc'), fun _ m hm => (by cases hm),
      hinside⟩
    refine List.eq_nil_iff_forall_not_mem.mpr fun m hm => ?_
    obtain ⟨n, hn, rfl⟩ := List.mem_map.mp hm
    obtain ⟨hn, hle⟩ := List.mem_filter.mp hn
    have hlt := hahead (by rw [List.any_cons, hc, Bool.true_or]) n hn
    have hle := of_decide_eq_true hle
    rw [hlen] at hlt
    omega
  · rintro ⟨hover, halive, -, hinside⟩
    refine ⟨List.forall_mem_cons.mpr ⟨?_, halive⟩, fun _ m hm => ?_, fun _ m hm => ?_, hinside⟩
    · rw [Chunk.marks_object hc]
      exact fun h => nomatch h
    · rw [hlen]
      by_contra hle
      have hmem : m - len ∈ overflow len l := List.mem_map.mpr
        ⟨m, List.mem_filter.mpr ⟨hm, decide_eq_true (by omega)⟩, rfl⟩
      rw [hover] at hmem
      cases hmem
    · rw [Chunk.marks_object hc] at hm
      cases hm

section

variable {D : Bytes ω} {d : Chunk ω}

theorem plains_append (b b' : Bytes ω) : plains (b ++ b') = plains b ++ plains b' :=
  List.map_append

theorem cloneLoop_spec (cs : Bytes ω) (hd : d.frozen = false) (halive : d.marks ≠ .freed)
    (hnonneg : ∀ m ∈ d.marks.entries, 0 ≤ m)
    (hlast : ∀ c, cs.getLast? = some c → c.isObject = false) :
    (LoopOk d.marks.entries d.len cs → ∃ b, cloneLoop cs (D ++ [d]) D.length = some b ∧
      plains b = plains D ++ d.plain d.offset :: rebuilt (d.offset + d.len) cs ∧
      isFrozen b = isFrozen (D ++ [d])) ∧
    (¬ LoopOk d.marks.entries d.len cs → cloneLoop cs (D ++ [d]) D.length = none) := by
  induction cs generalizing D d with
  | nil =>
    refine ⟨fun _ => ⟨D ++ [d], rfl, plains_append D [d], rfl⟩, fun h => absurd ?_ h⟩
    exact ⟨fun c hc => (by cases hc), fun h => (by cases h), trivial⟩
  | cons c cs ih =>
    have hlast' : ∀ c', cs.getLast? = some c' → c'.isObject = false := by
      intro c' hc'
      cases cs with
      | nil => cases hc'
      | cons c₂ cs => exact hlast c' (by rw [List.getLast?_cons_cons]; exact hc')
    have hlen : (D ++ [d]).length = (D ++ [d.moved]).length := by
      rw [List.length_append, List.length_append]
      rfl
    have hfirst (c' : Chunk ω) : isFrozen ((D ++ [d.moved]) ++ [c']) = isFrozen (D ++ [d]) := by
      cases D with
      | nil => simp [isFrozen]
      | cons x D => rfl
    have hplain (c' : Chunk ω) (hoffset : c'.offset = d.offset + d.len)
        (hc' : ∀ n, c'.plain n = c.plain n) (hlen' : c'.len = c.len) :
        plains (D ++ [d.moved]) ++ c'.plain c'.offset :: rebuilt (c'.offset + c'.len) cs =
          plains D ++ d.plain d.offset :: rebuilt (d.offset + d.len) (c :: cs) := by
      rw [plains_append, List.append_assoc, hoffset, hc', hlen']
      simp [plains, rebuilt]
    cases hc : c.isObject with
    | false =>
      rw [loopOk_data hc]
      by_cases hfreed : c.marks = .freed
      · refine ⟨fun h => absurd hfreed h.1, fun _ => ?_⟩
        rw [cloneLoop, cloneChunk_freed hfreed]
        rfl
      · obtain ⟨c', hclone, hobj, hfrozen, hcplain, hclen, hcalive, hentries⟩ :=
          cloneChunk_data hc hfreed
        have hover : ∀ m ∈ overflow d.len d.marks.entries, 0 ≤ m := fun m hm => overflow_nonneg hm
        have hlive : ∀ m ∈ c'.marks.entries, 0 ≤ m := by
          rw [hentries]
          exact fun m hm => of_decide_eq_true (List.mem_filter.mp hm).2
        set d₂ := (d.behind c').receive (overflow d.len d.marks.entries) with hd₂
        have hmarks : d₂.marks = c'.marks.receive (overflow d.len d.marks.entries) :=
          Chunk.setMarks_marks (d.behind c') _ hobj
        have hentries₂ : d₂.marks.entries = c.marks.live ++ overflow d.len d.marks.entries := by
          rw [hmarks, Marks.entries_receive hlive hover, hentries]
        have hlen₂ : d₂.len = c.len := (Chunk.setMarks_len _ _).trans hclen
        have hstep : cloneLoop (c :: cs) (D ++ [d]) D.length =
            cloneLoop cs ((D ++ [d.moved]) ++ [d₂]) (D ++ [d.moved]).length := by
          rw [cloneLoop, hclone, Option.bind_eq_bind, Option.bind_some,
            addChunk_data hd halive hobj hcalive, Option.bind_eq_bind, Option.bind_some, hlen,
            List.append_assoc]
          rfl
        obtain ⟨hyes, hno⟩ := ih (D := D ++ [d.moved]) (d := d₂)
          ((Chunk.setMarks_frozen _ _).trans hfrozen)
          (by rw [hmarks]; exact Marks.receive_alive hcalive _)
          (by
            rw [hentries₂, ← hentries]
            exact fun m hm => (List.mem_append.mp hm).elim (hlive m) (hover m))
          hlast'
        rw [hentries₂, hlen₂] at hyes hno
        rw [hstep]
        refine ⟨fun h => ?_, fun h => hno fun hok => h ⟨hfreed, hok⟩⟩
        obtain ⟨b, hb, hplains, hfrozen'⟩ := hyes h.2
        refine ⟨b, hb, hplains.trans ?_, hfrozen'.trans (hfirst d₂)⟩
        rw [← hlen₂]
        exact hplain d₂ (Chunk.receive_offset _ _)
          (fun n => ((Chunk.plain_receive _ _ n).trans (Chunk.plain_behind _ n)).trans (hcplain n))
          hlen₂
    | true =>
      rw [loopOk_object hc]
      obtain ⟨c', hclone, hobj, hfrozen, hcplain, hclen, hcmarks⟩ := cloneChunk_object hc
      by_cases hover : overflow d.len d.marks.entries = []
      · have hstep : cloneLoop (c :: cs) (D ++ [d]) D.length =
            cloneLoop cs ((D ++ [d.moved]) ++ [d.behind c']) (D ++ [d.moved]).length := by
          rw [cloneLoop, hclone, Option.bind_eq_bind, Option.bind_some,
            addChunk_inside hd halive hover, Option.bind_eq_bind, Option.bind_some, hlen,
            List.append_assoc]
          rfl
        have hmarks : (d.behind c').marks = .null := hcmarks
        obtain ⟨hyes, hno⟩ := ih (D := D ++ [d.moved]) (d := d.behind c') hfrozen
          (by rw [hmarks]; exact fun h => nomatch h)
          (by rw [hmarks]; exact fun m hm => by cases hm) hlast'
        rw [hmarks, show (d.behind c').len = 0 from hclen] at hyes hno
        rw [hstep]
        refine ⟨fun h => ?_, fun h => hno fun hok => h ⟨hover, hok⟩⟩
        obtain ⟨b, hb, hplains, hfrozen'⟩ := hyes h.2
        refine ⟨b, hb, hplains.trans ?_, hfrozen'.trans (hfirst _)⟩
        have hclen' : (d.behind c').len = c.len := by
          rw [Chunk.len_object hc]
          exact hclen
        have h := hplain (d.behind c') rfl hcplain hclen'
        rw [hclen', Chunk.len_object hc] at h
        exact h
      · refine ⟨fun h => absurd h.1 hover, fun _ => ?_⟩
        -- the next chunk would have to go behind the object, which has one behind it by now
        obtain ⟨c₂, cs₂, rfl⟩ : ∃ c₂ cs₂, cs = c₂ :: cs₂ := by
          cases cs with
          | nil =>
            have hdata := hlast c rfl
            rw [hc] at hdata
            cases hdata
          | cons c₂ cs₂ => exact ⟨c₂, cs₂, rfl⟩
        rw [cloneLoop, hclone, Option.bind_eq_bind, Option.bind_some,
          addChunk_overflow hd halive hover hobj hfrozen, Option.bind_eq_bind, Option.bind_some,
          cloneLoop, Option.bind_eq_bind, Option.bind_eq_none_iff]
        intro c₃ _
        rw [addChunk_not_last (by simp)]
        rfl

end

end Hilti.Embedded
