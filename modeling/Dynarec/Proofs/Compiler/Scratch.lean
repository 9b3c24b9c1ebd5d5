import Mathlib.Data.List.Nodup
import Mathlib.Tactic.Common
import Dynarec.Ir.Scratch

/-!
# Handing out scratch locals

`Scratch.Valid` says that the lists of released locals hold declared locals of their types, each
once and none of them held. Handing out and taking back locals keeps it, and changes which locals
are held by the one local only.
-/

namespace Dynarec.Ir.Scratch

variable {s s' : Scratch} {l x : Local} {ty ty' : Ty}

/-- A local is handed out. -/
def Holds (s : Scratch) (l : Local) : Prop := s.held[l.id]? = some true

/-- The released locals are declared with their types, listed once and not held. -/
structure Valid (s : Scratch) : Prop where
  size : s.held.size = s.types.size
  typed : ∀ ty, ∀ l ∈ s.free ty, s.types[l.id]? = some ty
  apart : ∀ ty, ∀ l ∈ s.free ty, ¬ s.Holds l
  nodup : ∀ ty, (s.free ty).Nodup

lemma valid_empty : empty.Valid where
  size := rfl
  typed ty l hl := by cases ty <;> cases hl
  apart ty l hl := by cases ty <;> cases hl
  nodup ty := by cases ty <;> exact List.nodup_nil

lemma not_holds_empty : ¬ empty.Holds l := by
  intro h
  cases h

@[simp] lemma types_setFree (s : Scratch) (free : List Local) (ty : Ty) :
    (s.setFree free ty).types = s.types := by
  cases ty <;> rfl

@[simp] lemma held_setFree (s : Scratch) (free : List Local) (ty : Ty) :
    (s.setFree free ty).held = s.held := by
  cases ty <;> rfl

lemma free_setFree (s : Scratch) (free : List Local) (ty ty' : Ty) (held : Array Bool) :
    Scratch.free { s.setFree free ty with held := held } ty' =
      if ty' = ty then free else s.free ty' := by
  cases ty <;> cases ty' <;> rfl

/-- Locals are told apart by their ids. -/
lemma eq_of_id {l x : Local} (h : l.id = x.id) : l = x := by
  cases l
  cases x
  exact congrArg _ h

lemma Valid.lt_of_holds (hs : s.Valid) (h : s.Holds l) : l.id < s.types.size :=
  hs.size ▸ (Array.getElem?_eq_some_iff.1 h).1

/-- No list of released locals has a local of another type. -/
lemma Valid.not_mem_free (hs : s.Valid) (h : s.types[l.id]? = some ty) (hne : ty' ≠ ty) :
    l ∉ s.free ty' := by
  intro hl
  rw [hs.typed ty' l hl] at h
  exact hne (Option.some_inj.1 h)

/-- What handing out a local does: the local was not held, has the type, and is the only change. -/
structure Allocated (s : Scratch) (ty : Ty) (l : Local) (s' : Scratch) : Prop where
  valid : s'.Valid
  fresh : ¬ s.Holds l
  typed : s'.types[l.id]? = some ty
  types : ∀ (i : Nat) ty, s.types[i]? = some ty → s'.types[i]? = some ty
  holds : ∀ x, s'.Holds x ↔ x = l ∨ s.Holds x

/-- What taking back a local does. -/
structure Released (s : Scratch) (l : Local) (s' : Scratch) : Prop where
  valid : s'.Valid
  types : s'.types = s.types
  holds : ∀ x, s'.Holds x ↔ x ≠ l ∧ s.Holds x

/-- When a local is given back the others are still held. -/
lemma Released.holds_iff {before after : List Local} (h : Released s l s')
    (hnodup : (before ++ l :: after).Nodup) (hholds : ∀ x, s.Holds x ↔ x ∈ before ++ l :: after)
    (x : Local) : s'.Holds x ↔ x ∈ before ++ after := by
  rw [List.nodup_middle, List.nodup_cons] at hnodup
  rw [h.holds, hholds, List.mem_append, List.mem_cons, List.mem_append]
  constructor
  · rintro ⟨hne, hx | rfl | hx⟩
    · exact .inl hx
    · exact absurd rfl hne
    · exact .inr hx
  · refine fun hx => ⟨?_, hx.imp_right .inr⟩
    rintro rfl
    exact hnodup.1 (List.mem_append.2 hx)

/-- A released local is handed out again. -/
lemma allocated_reuse {rest : List Local} (hs : s.Valid) (hfree : s.free ty = l :: rest) :
    Allocated s ty l
      { s.setFree rest ty with held := s.held.setIfInBounds l.id true } := by
  have hl : l ∈ s.free ty := hfree ▸ List.mem_cons_self
  have hnodup := hs.nodup ty
  rw [hfree, List.nodup_cons] at hnodup
  have htyped := hs.typed ty l hl
  have hlt : l.id < s.held.size := hs.size ▸ (Array.getElem?_eq_some_iff.1 htyped).1
  have hholds : ∀ x, Holds { s.setFree rest ty with held := s.held.setIfInBounds l.id true } x ↔
      x = l ∨ s.Holds x := by
    intro x
    simp only [Holds, Array.getElem?_setIfInBounds, hlt, if_true]
    by_cases hx : l.id = x.id
    · simp [eq_of_id hx]
    · rw [if_neg hx]
      exact ⟨.inr, fun h => h.resolve_left fun e => hx (congrArg _ e.symm)⟩
  have hsub : ∀ ty', ∀ x ∈ Scratch.free { s.setFree rest ty with
      held := s.held.setIfInBounds l.id true } ty', x ∈ s.free ty' ∧ x ≠ l := by
    intro ty' x hx
    rw [free_setFree] at hx
    by_cases hty : ty' = ty
    · rw [if_pos hty] at hx
      subst hty
      exact ⟨hfree ▸ List.mem_cons_of_mem _ hx, fun e => hnodup.1 (e ▸ hx)⟩
    · rw [if_neg hty] at hx
      exact ⟨hx, fun e => hs.not_mem_free htyped hty (e ▸ hx)⟩
  refine ⟨⟨?_, fun ty' x hx => ?_, fun ty' x hx => ?_, fun ty' => ?_⟩, hs.apart ty l hl, ?_, ?_,
    hholds⟩
  · simpa using hs.size
  · simpa using hs.typed ty' x (hsub ty' x hx).1
  · rw [hholds]
    exact fun h => h.elim (hsub ty' x hx).2 (hs.apart ty' x (hsub ty' x hx).1)
  · rw [free_setFree]
    split
    · exact hnodup.2
    · exact hs.nodup ty'
  · simpa using htyped
  · exact fun i ty h => by simpa using h

/-- A new local is declared. -/
lemma allocated_declare (hs : s.Valid) :
    Allocated s ty ⟨s.types.size⟩
      { s with types := s.types.push ty, held := s.held.push true } := by
  have hkeep : ∀ (i : Nat) ty', s.types[i]? = some ty' → (s.types.push ty)[i]? = some ty' := by
    intro i ty' h
    have hlt := (Array.getElem?_eq_some_iff.1 h).1
    rw [Array.getElem?_push, if_neg (Nat.ne_of_lt hlt)]
    exact h
  have hholds : ∀ x, Holds { s with types := s.types.push ty, held := s.held.push true } x ↔
      x = ⟨s.types.size⟩ ∨ s.Holds x := by
    intro x
    simp only [Holds, Array.getElem?_push, hs.size]
    by_cases hx : x.id = s.types.size
    · have : x = ⟨s.types.size⟩ := eq_of_id hx
      simp [this]
    · rw [if_neg hx]
      exact ⟨.inr, fun h => h.resolve_left fun e => hx (congrArg _ e)⟩
  have hfree : ∀ ty', Scratch.free { s with
      types := s.types.push ty, held := s.held.push true } ty' = s.free ty' := by
    intro ty'
    cases ty' <;> rfl
  refine ⟨⟨?_, fun ty' x hx => ?_, fun ty' x hx => ?_, fun ty' => ?_⟩, fun h => ?_, ?_, hkeep,
    hholds⟩
  · simp [hs.size]
  · rw [hfree] at hx
    exact hkeep _ _ (hs.typed ty' x hx)
  · rw [hfree] at hx
    rw [hholds]
    rintro (rfl | h)
    · exact Nat.lt_irrefl _ (Array.getElem?_eq_some_iff.1 (hs.typed ty' _ hx)).1
    · exact hs.apart ty' x hx h
  · rw [hfree]
    exact hs.nodup ty'
  · exact Nat.lt_irrefl _ (hs.lt_of_holds h)
  · simp

lemma allocated_alloc (hs : s.Valid) (ty : Ty) :
    Allocated s ty (s.alloc ty).1 (s.alloc ty).2 := by
  unfold alloc
  split
  · next hfree => exact allocated_reuse hs hfree
  · exact allocated_declare hs

/-- A held local can be taken back. -/
lemma released_release (hs : s.Valid) (h : s.Holds l) :
    ∃ s', s.release l = some s' ∧ Released s l s' := by
  have hlt := hs.lt_of_holds h
  have hlt' : l.id < s.held.size := hs.size ▸ hlt
  obtain ⟨ty, hty⟩ : ∃ ty, s.types[l.id]? = some ty := ⟨_, Array.getElem?_eq_getElem hlt⟩
  have hheld : s.held.getD l.id false = true := by
    rw [Array.getD_eq_getD_getElem?, h]
    rfl
  have hholds : ∀ x, Holds { s.setFree (l :: s.free ty) ty with
      held := s.held.setIfInBounds l.id false } x ↔ x ≠ l ∧ s.Holds x := by
    intro x
    simp only [Holds, Array.getElem?_setIfInBounds, hlt', if_true]
    by_cases hx : l.id = x.id
    · simp [eq_of_id hx]
    · rw [if_neg hx]
      exact ⟨fun h => ⟨fun e => hx (congrArg _ e.symm), h⟩, And.right⟩
  have hsub : ∀ ty', ∀ x ∈ Scratch.free { s.setFree (l :: s.free ty) ty with
      held := s.held.setIfInBounds l.id false } ty', (x = l ∧ ty' = ty) ∨ x ∈ s.free ty' := by
    intro ty' x hx
    rw [free_setFree] at hx
    by_cases hty' : ty' = ty
    · rw [if_pos hty'] at hx
      subst hty'
      exact (List.mem_cons.1 hx).imp_left fun e => ⟨e, rfl⟩
    · rw [if_neg hty'] at hx
      exact .inr hx
  refine ⟨_, by rw [release, hty]; simp only [hheld, if_true], ⟨?_, fun ty' x hx => ?_,
    fun ty' x hx => ?_, fun ty' => ?_⟩, by simp, hholds⟩
  · simpa using hs.size
  · rcases hsub ty' x hx with ⟨rfl, rfl⟩ | hx
    · simpa using hty
    · simpa using hs.typed ty' x hx
  · rw [hholds]
    rcases hsub ty' x hx with ⟨rfl, rfl⟩ | hx
    · exact fun h => h.1 rfl
    · exact fun h => hs.apart ty' x hx h.2
  · rw [free_setFree]
    split
    · exact List.nodup_cons.2 ⟨fun hl => hs.apart ty l hl h, hs.nodup ty⟩
    · exact hs.nodup ty'

/-- No local is held when none is counted. -/
lemma heldCount_eq_zero : s.heldCount = 0 ↔ ∀ l, ¬ s.Holds l := by
  rw [heldCount, Array.count_eq_zero]
  constructor
  · intro h l hl
    exact h (Array.mem_of_getElem? hl)
  · intro h hmem
    obtain ⟨i, hi⟩ := Array.getElem?_of_mem hmem
    exact h ⟨i⟩ hi

end Dynarec.Ir.Scratch
