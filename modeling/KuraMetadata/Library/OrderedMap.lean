import Mathlib.Data.List.Sort
import KuraMetadata.Library.Except

/-! # Ordered maps

Lookups after the updates of a `Std.ExtTreeMap` whose comparison decides equality, and the
entries of such a map that an ordered scan visits. -/

namespace List

variable {α : Type*} {p : α → Bool}

/-- In a list where `p` never comes back once it has failed, `takeWhile` takes all of it. -/
theorem takeWhile_eq_filter : ∀ {l : List α}, l.Pairwise (fun a b => p b = true → p a = true) →
    l.takeWhile p = l.filter p
  | [], _ => rfl
  | a :: l, h => by
    rw [List.pairwise_cons] at h
    by_cases ha : p a = true
    · rw [List.takeWhile_cons_of_pos ha, List.filter_cons_of_pos ha, takeWhile_eq_filter h.2]
    · rw [List.takeWhile_cons_of_neg ha, List.filter_cons_of_neg ha, eq_comm,
        List.filter_eq_nil_iff]
      exact fun b hb hpb => ha (h.1 b hb hpb)

theorem dropWhile_eq_filter : ∀ {l : List α}, l.Pairwise (fun a b => p b = true → p a = true) →
    l.dropWhile p = l.filter fun a => !p a
  | [], _ => rfl
  | a :: l, h => by
    rw [List.pairwise_cons] at h
    by_cases ha : p a = true
    · rw [List.dropWhile_cons_of_pos ha, List.filter_cons_of_neg (by simp [ha]),
        dropWhile_eq_filter h.2]
    · rw [List.dropWhile_cons_of_neg ha, List.filter_cons_of_pos (by simp [ha]), eq_comm]
      congr 1
      refine List.filter_eq_self.mpr fun b hb => ?_
      have : p b ≠ true := fun hpb => ha (h.1 b hb hpb)
      simp [this]

theorem find?_key_eq_some {κ : Type*} [DecidableEq κ] {l : List α} {key : α → κ}
    (hnodup : (l.map key).Nodup) {k : κ} {a : α} :
    l.find? (fun a => key a = k) = some a ↔ a ∈ l ∧ key a = k := by
  constructor
  · intro h
    exact ⟨mem_of_find?_eq_some h, by simpa using find?_some h⟩
  · rintro ⟨hmem, hkey⟩
    cases hfind : l.find? (fun a => key a = k) with
    | none =>
      have hnone := find?_eq_none.mp hfind a hmem
      exact absurd hkey (by simpa using hnone)
    | some b =>
      have hb : key b = k := by simpa using find?_some hfind
      rw [inj_on_of_nodup_map hnodup (mem_of_find?_eq_some hfind) hmem (hb.trans hkey.symm)]

end List

namespace Std.ExtTreeMap

variable {α β : Type} {cmp : α → α → Ordering} [TransCmp cmp] [LawfulEqCmp cmp] [DecidableEq α]
variable {t : ExtTreeMap α β cmp} {a k : α}

theorem getElem?_insert_eq (t : ExtTreeMap α β cmp) (k a : α) (v : β) :
    (t.insert k v)[a]? = if k = a then some v else t[a]? := by
  rw [getElem?_insert]
  by_cases h : k = a
  · rw [if_pos (LawfulEqCmp.compare_eq_iff_eq.mpr h), if_pos h]
  · rw [if_neg fun he => h (LawfulEqCmp.compare_eq_iff_eq.mp he), if_neg h]

theorem getElem?_erase_eq (t : ExtTreeMap α β cmp) (k a : α) :
    (t.erase k)[a]? = if k = a then none else t[a]? := by
  rw [getElem?_erase]
  by_cases h : k = a
  · rw [if_pos (LawfulEqCmp.compare_eq_iff_eq.mpr h), if_pos h]
  · rw [if_neg fun he => h (LawfulEqCmp.compare_eq_iff_eq.mp he), if_neg h]

theorem getElem?_insert_of_ne (h : k ≠ a) (v : β) : (t.insert k v)[a]? = t[a]? := by
  rw [getElem?_insert_eq, if_neg h]

theorem getElem?_erase_of_ne (h : k ≠ a) : (t.erase k)[a]? = t[a]? := by
  rw [getElem?_erase_eq, if_neg h]

/-- The lookups of a map as a function: an insertion changes it at one place. -/
theorem getElem?_insert_eq_update (t : ExtTreeMap α β cmp) (k : α) (v : β) :
    (fun a => (t.insert k v)[a]?) = Function.update (fun a => t[a]?) k (some v) := by
  funext a
  rw [getElem?_insert_eq, Function.update_apply]
  simp only [eq_comm]

theorem getElem?_erase_eq_update (t : ExtTreeMap α β cmp) (k : α) :
    (fun a => (t.erase k)[a]?) = Function.update (fun a => t[a]?) k none := by
  funext a
  rw [getElem?_erase_eq, Function.update_apply]
  simp only [eq_comm]

theorem getElem?_insert_eq_some {v w : β} :
    (t.insert k v)[a]? = some w ↔ k = a ∧ v = w ∨ k ≠ a ∧ t[a]? = some w := by
  rw [getElem?_insert_eq]
  by_cases h : k = a
  · simp [h]
  · simp [h]

theorem getElem?_erase_eq_some {w : β} : (t.erase k)[a]? = some w ↔ k ≠ a ∧ t[a]? = some w := by
  rw [getElem?_erase_eq]
  by_cases h : k = a
  · simp [h]
  · simp [h]

theorem getElem?_foldl_erase_eq_some {keys : List α} {w : β} :
    (keys.foldl (fun t k => t.erase k) t)[a]? = some w ↔ a ∉ keys ∧ t[a]? = some w := by
  induction keys generalizing t with
  | nil => simp
  | cons k keys ih =>
    rw [List.foldl_cons, ih, getElem?_erase_eq_some, List.mem_cons, not_or, ← and_assoc,
      and_comm (a := a ∉ keys), Ne.eq_def, eq_comm]

omit [LawfulEqCmp cmp] [DecidableEq α] in
theorem mem_iff_exists_getElem? : a ∈ t ↔ ∃ v, t[a]? = some v := by
  rw [mem_iff_isSome_getElem?, Option.isSome_iff_exists]

omit [LawfulEqCmp cmp] [DecidableEq α] in
theorem notMem_iff_getElem? : a ∉ t ↔ t[a]? = none := by
  rw [mem_iff_isSome_getElem?, Option.not_isSome_iff_eq_none]

omit [LawfulEqCmp cmp] [DecidableEq α] in
theorem size_insert_of_getElem? {v : β} (h : t[k]? = some v) (w : β) :
    (t.insert k w).size = t.size := by
  have hk : k ∈ t := mem_iff_exists_getElem?.mpr ⟨v, h⟩
  rw [size_insert, if_pos (contains_iff_mem.mpr hk)]

omit [LawfulEqCmp cmp] [DecidableEq α] in
/-- Below a bound, the keys of an ordered scan never come back. -/
theorem pairwise_toList_isLT (t : ExtTreeMap α β cmp) (bound : α) :
    t.toList.Pairwise fun a b => (cmp b.1 bound).isLT = true → (cmp a.1 bound).isLT = true := by
  refine ordered_keys_toList.imp fun {a b} hab hb => ?_
  rw [Ordering.isLT_iff_eq_lt] at hb ⊢
  exact TransCmp.lt_trans hab hb

/-- The map a fold has built by inserting each element of a list under a fresh key. -/
theorem getElem?_foldlM_insert {ε σ γ : Type} {step : σ → γ → Except ε σ}
    (m : σ → ExtTreeMap α β cmp) (key : γ → α) (value : γ → β) {l : List γ} {s u : σ}
    (hstep : ∀ {a b x}, step a x = .ok b →
      (m a)[key x]? = none ∧ m b = (m a).insert (key x) (value x)) (h : l.foldlM step s = .ok u)
    {w : β} :
    (m u)[k]? = some w ↔ (∃ x ∈ l, key x = k ∧ value x = w) ∨ (m s)[k]? = some w := by
  induction l generalizing s with
  | nil =>
    obtain rfl := Except.pure_eq_ok.mp h
    simp
  | cons x l ih =>
    simp only [List.foldlM_cons, Except.bind_eq_ok] at h
    obtain ⟨a, ha, h⟩ := h
    obtain ⟨hfresh, hinsert⟩ := hstep ha
    rw [ih h, hinsert, getElem?_insert_eq_some, List.exists_mem_cons_iff]
    constructor
    · rintro (hlater | hhere | ⟨-, hbefore⟩)
      · exact .inl (.inr hlater)
      · exact .inl (.inl hhere)
      · exact .inr hbefore
    · rintro ((hhere | hlater) | hbefore)
      · exact .inr (.inl hhere)
      · exact .inl hlater
      · refine .inr (.inr ⟨?_, hbefore⟩)
        rintro rfl
        rw [hfresh] at hbefore
        cases hbefore

end Std.ExtTreeMap
