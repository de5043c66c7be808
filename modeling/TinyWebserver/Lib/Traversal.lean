import Mathlib.Tactic

/-!
# Lists of fallible results

`List.mapM` with a function that may fail, in `Option`: it fails if the function fails somewhere, and else
gives the list of the results. `mapM_eq_some_iff` says so, `mapM_bind` composes two such functions, and
`mapM_eq_self_iff` says when all elements are kept.
-/

namespace Traversal

variable {α β γ : Type*} {f : α → Option β}

@[simp]
theorem mapM_nil (f : α → Option β) :
  ([] : List α).mapM f = some []
  := rfl

theorem mapM_cons_eq (f : α → Option β) (a : α) (l : List α) :
  (a :: l).mapM f = (f a).bind fun b => (l.mapM f).map fun bs => b :: bs
  := by
  rw [List.mapM_cons]
  cases f a with
  | none => rfl
  | some b =>
      cases l.mapM f with
      | none => rfl
      | some bs => rfl

/-- The results are those of the elements, in order. -/
theorem mapM_eq_some_iff {l : List α} {bs : List β} :
  l.mapM f = some bs ↔ List.Forall₂ (fun a b => f a = some b) l bs
  := by
  induction l generalizing bs with
  | nil =>
      rw [mapM_nil, List.forall₂_nil_left_iff]
      constructor
      · intro h
        exact (Option.some.inj h).symm
      · rintro rfl
        rfl
  | cons a l ih =>
      rw [mapM_cons_eq]
      constructor
      · intro h
        obtain ⟨b, hb, hrest⟩ := Option.bind_eq_some_iff.mp h
        obtain ⟨bs', hbs', rfl⟩ := Option.map_eq_some_iff.mp hrest
        exact List.Forall₂.cons hb (ih.mp hbs')
      · intro h
        obtain ⟨b, bs', hb, hbs', rfl⟩ := List.forall₂_cons_left_iff.mp h
        rw [hb, ih.mpr hbs']
        rfl

/-- Two functions, one behind the other. -/
theorem mapM_bind (f : α → Option β) (g : β → Option γ) (l : List α) :
  (l.mapM f).bind (fun bs => bs.mapM g) = l.mapM fun a => (f a).bind g
  := by
  induction l with
  | nil => rfl
  | cons a l ih =>
      rw [mapM_cons_eq, mapM_cons_eq, ← ih]
      cases f a with
      | none => rfl
      | some b =>
          cases l.mapM f with
          | none =>
              cases hg : g b with
              | none => simp [hg]
              | some c => simp [hg]
          | some bs =>
              rw [Option.bind_some, Option.map_some, Option.bind_some, mapM_cons_eq]
              rfl

/-- All elements are kept exactly if each of them is. -/
theorem mapM_eq_self_iff {f : α → Option α} {l : List α} :
  l.mapM f = some l ↔ ∀ a ∈ l, f a = some a
  := by
  rw [mapM_eq_some_iff, List.forall₂_same]

/-- What the results have in common with their elements. -/
theorem map_eq_of_mapM {δ : Type*} {g : β → δ} {h : α → δ} (hf : ∀ a b, f a = some b → g b = h a)
    {l : List α} {bs : List β} (hl : l.mapM f = some bs) :
  bs.map g = l.map h
  := by
  rw [mapM_eq_some_iff] at hl
  induction hl with
  | nil => rfl
  | cons hab _ ih => rw [List.map_cons, List.map_cons, hf _ _ hab, ih]

/-- Each element is related to one of the other list. -/
theorem exists_of_forall₂ {R : α → β → Prop} {l : List α} {bs : List β} (h : List.Forall₂ R l bs) :
  ∀ a ∈ l, ∃ b ∈ bs, R a b
  := by
  induction h with
  | nil => simp
  | cons hab _ ih =>
      intro a ha
      rcases List.mem_cons.mp ha with rfl | ha
      · exact ⟨_, List.mem_cons_self, hab⟩
      · obtain ⟨b, hb, hR⟩ := ih a ha
        exact ⟨b, List.mem_cons_of_mem _ hb, hR⟩

/-- Each element has its result, and each result its element. -/
theorem mem_of_mapM_eq_some {l : List α} {bs : List β} (h : l.mapM f = some bs) :
  (∀ a ∈ l, ∃ b ∈ bs, f a = some b) ∧ ∀ b ∈ bs, ∃ a ∈ l, f a = some b
  := by
  rw [mapM_eq_some_iff] at h
  exact ⟨exists_of_forall₂ h, exists_of_forall₂ h.flip⟩

theorem exists_mapM_eq_some {l : List α} (h : ∀ a ∈ l, ∃ b, f a = some b) :
  ∃ bs, l.mapM f = some bs
  := by
  induction l with
  | nil => exact ⟨[], rfl⟩
  | cons a l ih =>
      obtain ⟨b, hb⟩ := h a List.mem_cons_self
      obtain ⟨bs, hbs⟩ := ih fun a' ha' => h a' (List.mem_cons_of_mem _ ha')
      use b :: bs
      rw [mapM_cons_eq, hb, hbs]
      rfl

end Traversal
