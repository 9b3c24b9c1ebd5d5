import Dynarec.Proofs.Compiler.Scratch

/-!
# Scratch locals over any calls

A local that is handed out is not handed out again before it is taken back. `Ledger` follows calls
by their answers alone: it lists the locals that were handed out and not taken back since, and
`Ledger.Exact` says how the pool agrees with that list. Every call keeps it.
-/

namespace Dynarec.Ir.Scratch

variable {s s' : Scratch} {l : Local} {ty : Ty}

/-! ### Single calls -/

/-- A list of released locals is popped, or a local is declared. -/
lemma alloc_eq (s : Scratch) (ty : Ty) :
    (∃ l rest, s.free ty = l :: rest ∧
      s.alloc ty = (l, { s.setFree rest ty with held := s.held.setIfInBounds l.id true })) ∨
    s.free ty = [] ∧ s.alloc ty =
      (⟨s.types.size⟩, { s with types := s.types.push ty, held := s.held.push true }) := by
  unfold alloc
  cases hfree : s.free ty with
  | nil => exact .inr ⟨rfl, rfl⟩
  | cons l rest => exact .inl ⟨l, rest, rfl, rfl⟩

/-- A local that is taken back was held, and waits on the list of its type. -/
lemma release_eq_some (h : s.release l = some s') : ∃ ty, s.types[l.id]? = some ty ∧ s.Holds l ∧
    s' = { s.setFree (l :: s.free ty) ty with held := s.held.setIfInBounds l.id false } := by
  unfold release at h
  cases hty : s.types[l.id]? with
  | none => rw [hty] at h; cases h
  | some ty =>
    rw [hty] at h
    dsimp only at h
    split at h
    · next hheld =>
      refine ⟨ty, rfl, ?_, (Option.some_inj.1 h).symm⟩
      rw [Array.getD_eq_getD_getElem?] at hheld
      unfold Holds
      cases hget : s.held[l.id]? with
      | none => rw [hget] at hheld; cases hheld
      | some b => rw [hget] at hheld; exact congrArg some hheld
    · cases h

/-- Handing out a local makes one more that is held. -/
lemma heldCount_alloc (hs : s.Valid) (ty : Ty) : (s.alloc ty).2.heldCount = s.heldCount + 1 := by
  rcases s.alloc_eq ty with ⟨l, rest, hfree, heq⟩ | ⟨hfree, heq⟩
  · have hl : l ∈ s.free ty := hfree ▸ List.mem_cons_self
    have hlt : l.id < s.held.size :=
      hs.size ▸ (Array.getElem?_eq_some_iff.1 (hs.typed ty l hl)).1
    have hget : s.held[l.id] = false := by
      have hnot := hs.apart ty l hl
      rw [Holds, Array.getElem?_eq_getElem hlt] at hnot
      simpa using hnot
    rw [heq, heldCount, heldCount]
    simp [Array.setIfInBounds_def, hlt, Array.count_set hlt, hget]
  · rw [heq, heldCount, heldCount]
    simp

/-- Taking back a local makes one fewer that is held. -/
lemma heldCount_release (h : s.release l = some s') : s'.heldCount + 1 = s.heldCount := by
  obtain ⟨ty, -, hheld, rfl⟩ := release_eq_some h
  obtain ⟨hlt, hget⟩ := Array.getElem?_eq_some_iff.1 hheld
  have hpos : 0 < s.held.count true := Array.count_pos_iff.2 (hget ▸ Array.getElem_mem hlt)
  simp only [heldCount, Array.setIfInBounds_def, dif_pos hlt, Array.count_set hlt, hget]
  rw [if_pos (beq_self_eq_true true), if_neg (by decide)]
  omega

/-- Every declared local that is not held waits on the list of its type. -/
def Listed (s : Scratch) : Prop :=
  ∀ ty l, s.types[l.id]? = some ty → ¬s.Holds l → l ∈ s.free ty

lemma listed_empty : empty.Listed := by
  intro ty l h
  cases h

lemma Listed.alloc (h : s.Listed) (hs : s.Valid) (ty : Ty) : (s.alloc ty).2.Listed := by
  have hholds := (allocated_alloc hs ty).holds
  intro ty' x hx hn
  rw [hholds, not_or] at hn
  rcases s.alloc_eq ty with ⟨l, rest, hfree, heq⟩ | ⟨hfree, heq⟩
  · rw [heq] at hx hn ⊢
    have hmem := h ty' x (by simpa using hx) hn.2
    rw [free_setFree]
    split
    · next heqty =>
      subst heqty
      rw [hfree] at hmem
      exact (List.mem_cons.1 hmem).resolve_left hn.1
    · exact hmem
  · rw [heq] at hx hn ⊢
    have hne : x.id ≠ s.types.size := fun e => hn.1 (eq_of_id e)
    have hmem := h ty' x (by simpa [Array.getElem?_push, hne] using hx) hn.2
    cases ty' <;> exact hmem

lemma Listed.release (h : s.Listed) (hr : s.release l = some s') : s'.Listed := by
  obtain ⟨ty, hty, hheld, rfl⟩ := release_eq_some hr
  intro ty' x hx hn
  rw [free_setFree]
  have hdecl : s.types[x.id]? = some ty' := by simpa using hx
  by_cases hxl : x = l
  · subst hxl
    rw [if_pos (Option.some_inj.1 (hdecl.symm.trans hty))]
    exact List.mem_cons_self
  · have hmem := h ty' x hdecl fun hxh => hn (by
      have hid : l.id ≠ x.id := fun e => hxl (eq_of_id e.symm)
      simpa [Holds, Array.getElem?_setIfInBounds, hid] using hxh)
    split
    · next heqty => exact List.mem_cons_of_mem _ (heqty ▸ hmem)
    · exact hmem

/-! ### Any calls -/

/-- A call that hands out a local of a type, or one that takes back a local, which may fail. -/
inductive Call where
  | alloc (ty : Ty)
  | release (l : Local)

/-- Scratch locals, and those of them that calls have handed out and not taken back. -/
structure Ledger where
  scratch : Scratch
  out : List Local

namespace Ledger

/-- Make a call, and note its answer. -/
def step (r : Ledger) : Call → Ledger
  | .alloc ty => ⟨(r.scratch.alloc ty).2, (r.scratch.alloc ty).1 :: r.out⟩
  | .release l =>
    match r.scratch.release l with
    | some s => ⟨s, r.out.erase l⟩
    | none => r

/-- Make calls one after the other, starting without locals. -/
def run (calls : List Call) : Ledger := calls.foldl step ⟨empty, []⟩

/-- A declared local of a type waits to be handed out. -/
def Waits (r : Ledger) (ty : Ty) (l : Local) : Prop := r.scratch.types[l.id]? = some ty ∧ l ∉ r.out

/-- The pool agrees with the list of what is handed out. -/
structure Exact (r : Ledger) : Prop where
  valid : r.scratch.Valid
  listed : r.scratch.Listed
  nodup : r.out.Nodup
  holds : ∀ l, r.scratch.Holds l ↔ l ∈ r.out
  count : r.scratch.heldCount = r.out.length

variable {r : Ledger}

lemma step_release_some {l : Local} {s : Scratch} (h : r.scratch.release l = some s) :
    r.step (.release l) = ⟨s, r.out.erase l⟩ := by
  simp only [step, h]

lemma step_release_none {l : Local} (h : r.scratch.release l = none) :
    r.step (.release l) = r := by
  simp only [step, h]

lemma exact_empty : Exact ⟨empty, []⟩ where
  valid := valid_empty
  listed := listed_empty
  nodup := List.nodup_nil
  holds l := by simpa using not_holds_empty
  count := rfl

/-- A local is taken back exactly if it is handed out. -/
lemma Exact.release_isSome (h : r.Exact) (l : Local) :
    (r.scratch.release l).isSome ↔ l ∈ r.out := by
  rw [← h.holds]
  constructor
  · intro hsome
    obtain ⟨s, hs⟩ := Option.isSome_iff_exists.1 hsome
    obtain ⟨-, -, hheld, -⟩ := release_eq_some hs
    exact hheld
  · intro hheld
    obtain ⟨s, hs, -⟩ := released_release h.valid hheld
    exact Option.isSome_iff_exists.2 ⟨s, hs⟩

/-- Trying to take back a local that is not handed out changes nothing. -/
lemma Exact.step_release_of_notMem (h : r.Exact) {l : Local} (hl : l ∉ r.out) :
    r.step (.release l) = r :=
  step_release_none (Option.not_isSome_iff_eq_none.1 fun hsome => hl ((h.release_isSome l).1 hsome))

/-- The list of released locals of a type has those that wait. -/
lemma Exact.mem_free (h : r.Exact) {ty : Ty} {l : Local} :
    l ∈ r.scratch.free ty ↔ r.Waits ty l := by
  rw [Waits, ← h.holds]
  exact ⟨fun hl => ⟨h.valid.typed ty l hl, h.valid.apart ty l hl⟩, fun hl => h.listed ty l hl.1 hl.2⟩

/-- Nothing is declared while a local of the type waits, and one local is when none does. -/
lemma Exact.types_alloc (h : r.Exact) (ty : Ty) :
    (r.scratch.alloc ty).2.types = r.scratch.types ∧ (∃ l, r.Waits ty l) ∨
      (r.scratch.alloc ty).2.types = r.scratch.types.push ty ∧ ∀ l, ¬r.Waits ty l := by
  rcases r.scratch.alloc_eq ty with ⟨l, rest, hfree, heq⟩ | ⟨hfree, heq⟩
  · refine .inl ⟨?_, l, h.mem_free.1 (hfree ▸ List.mem_cons_self)⟩
    rw [heq]
    exact types_setFree _ _ _
  · refine .inr ⟨by rw [heq], fun l hl => ?_⟩
    have hmem := h.mem_free.2 hl
    rw [hfree] at hmem
    cases hmem

/-- Every call keeps the agreement. -/
lemma Exact.step (h : r.Exact) (call : Call) : (r.step call).Exact := by
  cases call with
  | alloc ty =>
    have ha := allocated_alloc h.valid ty
    refine ⟨ha.valid, h.listed.alloc h.valid ty, ?_, fun l => ?_, ?_⟩
    · exact List.nodup_cons.2 ⟨fun hl => ha.fresh ((h.holds _).2 hl), h.nodup⟩
    · exact (ha.holds l).trans ((or_congr_right (h.holds l)).trans List.mem_cons.symm)
    · exact (heldCount_alloc h.valid ty).trans (congrArg (· + 1) h.count)
  | release l =>
    by_cases hl : l ∈ r.out
    · obtain ⟨s, hs, hr⟩ := released_release h.valid ((h.holds l).2 hl)
      rw [step_release_some hs]
      refine ⟨hr.valid, h.listed.release hs, h.nodup.erase l, fun x => ?_, ?_⟩
      · rw [h.nodup.mem_erase_iff, hr.holds, h.holds]
      · have hpos := List.length_pos_of_mem hl
        have hcount := heldCount_release hs
        have hlen := h.count
        change s.heldCount = (r.out.erase l).length
        rw [List.length_erase_of_mem hl]
        omega
    · rw [h.step_release_of_notMem hl]
      exact h

lemma Exact.foldl (h : r.Exact) (calls : List Call) : (calls.foldl Ledger.step r).Exact := by
  induction calls generalizing r with
  | nil => exact h
  | cons call calls ih => exact ih (h.step call)

/-- Calls keep the types of declared locals. -/
lemma Exact.types_foldl (h : r.Exact) (calls : List Call) {i : Nat} {ty : Ty}
    (hty : r.scratch.types[i]? = some ty) :
    (calls.foldl Ledger.step r).scratch.types[i]? = some ty := by
  induction calls generalizing r with
  | nil => exact hty
  | cons call calls ih =>
    refine ih (h.step call) ?_
    cases call with
    | alloc ty' => exact (allocated_alloc h.valid ty').types i ty hty
    | release l =>
      cases hs : r.scratch.release l with
      | none => rwa [step_release_none hs]
      | some s =>
        rw [step_release_some hs]
        obtain ⟨ty', -, -, rfl⟩ := release_eq_some hs
        simpa using hty

lemma exact_run (calls : List Call) : (run calls).Exact := exact_empty.foldl calls

/-- After any calls, the next local that is handed out is not handed out at that time and has the
type that is asked for; it is a new one only if no declared local of the type waits. A local can be
taken back exactly if it is handed out, and nothing changes when it cannot. The number of held locals
is that of the locals handed out and not taken back, which are told apart. The released locals of
a type are listed once each. Declared locals keep their types over all further calls. -/
theorem handed_out_once (calls more : List Call) (ty : Ty) (l : Local) :
    ((run calls).scratch.alloc ty).1 ∉ (run calls).out ∧
    ((run calls).scratch.alloc ty).2.types[((run calls).scratch.alloc ty).1.id]? = some ty ∧
    (((run calls).scratch.alloc ty).2.types = (run calls).scratch.types ∧
        (∃ x, (run calls).Waits ty x) ∨
      ((run calls).scratch.alloc ty).2.types = (run calls).scratch.types.push ty ∧
        ∀ x, ¬(run calls).Waits ty x) ∧
    (((run calls).scratch.release l).isSome ↔ l ∈ (run calls).out) ∧
    (l ∉ (run calls).out → (run calls).step (.release l) = run calls) ∧
    (run calls).scratch.heldCount = (run calls).out.length ∧
    (run calls).out.Nodup ∧
    ((run calls).scratch.Holds l ↔ l ∈ (run calls).out) ∧
    ((run calls).scratch.free ty).Nodup ∧
    (l ∈ (run calls).scratch.free ty ↔ (run calls).Waits ty l) ∧
    ∀ (i : Nat) ty', (run calls).scratch.types[i]? = some ty' →
      (run (calls ++ more)).scratch.types[i]? = some ty' := by
  have h := exact_run calls
  have ha := allocated_alloc h.valid ty
  have hmore : run (calls ++ more) = more.foldl Ledger.step (run calls) := List.foldl_append
  refine ⟨fun hmem => ha.fresh ((h.holds _).2 hmem), ha.typed, h.types_alloc ty, h.release_isSome l,
    h.step_release_of_notMem, h.count, h.nodup, h.holds l, h.valid.nodup ty, h.mem_free,
    fun i ty' hty => ?_⟩
  rw [hmore]
  exact h.types_foldl more hty

end Ledger

end Dynarec.Ir.Scratch
