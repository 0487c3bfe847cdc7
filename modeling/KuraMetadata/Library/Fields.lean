import Mathlib.Data.List.Basic
import Mathlib.Tactic.Common

/-! # Lines and fields of a text

A text is a list of lines, each ended by a terminator, and a line is a list of fields with
separators between them. Reading the lines or the fields of a text gives back those it was written
from, as long as none of them contains what sets them apart. -/

namespace List

variable {α β : Type*} {before after : List α}

/-- The pieces of a text that a terminator ends. The last piece may lack its terminator if it is not
empty. -/
def linesEndedBy [DecidableEq α] (terminator : α) (text : List α) : List (List α) :=
  let pieces := text.splitOn terminator
  if pieces.getLast? = some [] then pieces.dropLast else pieces

/-- The nonempty pieces of a text between separators. -/
def fieldsBy (separates : α → Bool) (text : List α) : List (List α) :=
  (text.splitOnP separates).filter fun piece => !piece.isEmpty

/-! ## Lines -/

section

variable [DecidableEq α] {terminator : α}

@[simp]
theorem linesEndedBy_nil : linesEndedBy terminator [] = [] := rfl

theorem linesEndedBy_append_cons {line : List α} (hline : terminator ∉ line) (rest : List α) :
    linesEndedBy terminator (line ++ terminator :: rest)
      = line :: linesEndedBy terminator rest := by
  have hsplit : (line ++ terminator :: rest).splitOn terminator
      = line :: rest.splitOn terminator := by
    have hplain : ∀ c ∈ line, (c == terminator) = false := fun c hc =>
      beq_eq_false_iff_ne.mpr fun heq => hline (heq ▸ hc)
    have hends : (terminator == terminator) = true := beq_self_eq_true terminator
    exact splitOnP_append_cons_of_forall_mem hplain terminator hends rest
  -- there is a piece after the terminator, so the last piece is the same one
  obtain ⟨piece, pieces, hpieces⟩ : ∃ piece pieces, rest.splitOn terminator = piece :: pieces :=
    exists_cons_of_ne_nil (splitOnP_ne_nil _ _)
  simp only [linesEndedBy, hsplit, hpieces, getLast?_cons_cons, dropLast_cons_cons]
  split <;> rfl

theorem linesEndedBy_flatMap {write line : β → List α} (records : List β)
    (hwrite : ∀ record ∈ records, write record = line record ++ [terminator])
    (hline : ∀ record ∈ records, terminator ∉ line record) (rest : List α) :
    linesEndedBy terminator (records.flatMap write ++ rest)
      = records.map line ++ linesEndedBy terminator rest := by
  induction records with
  | nil => rfl
  | cons record records ih =>
    obtain ⟨hwrite, hwrites⟩ := forall_mem_cons.mp hwrite
    obtain ⟨hline, hlines⟩ := forall_mem_cons.mp hline
    rw [flatMap_cons, hwrite, append_assoc, append_assoc, singleton_append,
      linesEndedBy_append_cons hline, ih hwrites hlines, map_cons, cons_append]

end

/-! ## Fields -/

/-- A field is not empty and has no separator in it. -/
structure IsField (separates : α → Bool) (field : List α) : Prop where
  ne_nil : field ≠ []
  plain : ∀ a ∈ field, separates a = false

section

variable {separates : α → Bool} {separator : α} {field : List α} {fields : List (List α)}

theorem IsField.of_all (hne : field ≠ []) (h : field.all (fun a => !separates a) = true) :
    IsField separates field :=
  ⟨hne, fun a ha => by simpa using all_eq_true.mp h a ha⟩

theorem fieldsBy_of_isField (h : IsField separates field) : field.fieldsBy separates = [field] := by
  rw [fieldsBy, splitOnP_eq_singleton h.plain]
  simp [h.ne_nil]

theorem fieldsBy_append_cons (h : IsField separates field) (hseparator : separates separator = true)
    (rest : List α) :
    (field ++ separator :: rest).fieldsBy separates = field :: rest.fieldsBy separates := by
  rw [fieldsBy, splitOnP_append_cons_of_forall_mem h.plain separator hseparator, filter_cons_of_pos]
  · rfl
  · simp [h.ne_nil]

theorem fieldsBy_flatMap (h : IsField separates field)
    (hfields : ∀ field ∈ fields, IsField separates field)
    (hseparator : separates separator = true) :
    (field ++ fields.flatMap (separator :: ·)).fieldsBy separates = field :: fields := by
  induction fields generalizing field with
  | nil =>
    rw [flatMap_nil, append_nil]
    exact fieldsBy_of_isField h
  | cons next fields ih =>
    obtain ⟨hnext, hfields⟩ := forall_mem_cons.mp hfields
    rw [flatMap_cons, cons_append, fieldsBy_append_cons h hseparator, ih hnext hfields]

/-- A separator other than the one written does not occur in such a text. -/
theorem notMem_flatMap_separator {other : α} (hother : separates other = true)
    (hne : other ≠ separator) (h : IsField separates field)
    (hfields : ∀ field ∈ fields, IsField separates field) :
    other ∉ field ++ fields.flatMap (separator :: ·) := by
  have habsent : ∀ {field : List α}, IsField separates field → other ∉ field := fun hfield hmem =>
    absurd hother (by rw [hfield.plain other hmem]; decide)
  intro hmem
  rcases mem_append.mp hmem with hmem | hmem
  · exact habsent h hmem
  · obtain ⟨next, hnext, hmem⟩ := mem_flatMap.mp hmem
    rcases mem_cons.mp hmem with heq | hmem
    · exact hne heq
    · exact habsent (hfields next hnext) hmem

end

/-! ## Separated fields

A list is cut into fields by elements that no field contains. The cut is determined by the
list, so a concatenation of separated fields is injective in the fields. -/

section

variable {p : α → Prop} {x y rest rest' : List α}

/-- Two fields free of separators, each ended by a separator or by the end of the list. -/
theorem append_inj_of_separated (hx : ∀ a ∈ x, ¬ p a) (hy : ∀ a ∈ y, ¬ p a)
    (hrest : ∀ a ∈ rest.head?, p a) (hrest' : ∀ a ∈ rest'.head?, p a)
    (h : x ++ rest = y ++ rest') : x = y ∧ rest = rest' := by
  induction x generalizing y with
  | nil =>
    cases y with
    | nil => exact ⟨rfl, h⟩
    | cons a y =>
      rw [List.nil_append] at h
      refine absurd (hrest a ?_) (hy a List.mem_cons_self)
      rw [h]
      rfl
  | cons a x ih =>
    cases y with
    | nil =>
      rw [List.nil_append] at h
      refine absurd (hrest' a ?_) (hx a List.mem_cons_self)
      rw [← h]
      rfl
    | cons b y =>
      obtain ⟨rfl, hxy⟩ := List.cons.inj h
      obtain ⟨rfl, hrests⟩ := ih (List.forall_mem_cons.mp hx).2 (List.forall_mem_cons.mp hy).2 hxy
      exact ⟨rfl, hrests⟩

/-- The same where both fields end in one separator. -/
theorem append_cons_inj {c : α} (hx : c ∉ x) (hy : c ∉ y)
    (h : x ++ c :: rest = y ++ c :: rest') : x = y ∧ rest = rest' := by
  have hfree : ∀ {l : List α}, c ∉ l → ∀ a ∈ l, ¬ a = c := by
    intro l hl a ha hac
    exact hl (hac ▸ ha)
  have hhead : ∀ {l : List α}, ∀ a ∈ (c :: l).head?, a = c := by
    intro l a ha
    exact (Option.some.inj ha).symm
  obtain ⟨hfield, hrests⟩ := append_inj_of_separated (hfree hx) (hfree hy) hhead hhead h
  exact ⟨hfield, (List.cons.inj hrests).2⟩

end

/-! ## The first element of a kind

`splitFirst f l` finds the first element that `f` recognises and returns what stands before
it, what `f` made of it, and what stands after it. -/

variable {f : α → Option β} {l : List α}

def splitFirst (f : α → Option β) : List α → Option (List α × β × List α)
  | [] => none
  | a :: rest =>
    match f a with
    | some b => some ([], b, rest)
    | none => (splitFirst f rest).map fun (before, b, after) => (a :: before, b, after)

theorem splitFirst_eq_none (h : l.splitFirst f = none) : ∀ a ∈ l, f a = none := by
  induction l with
  | nil => simp
  | cons a rest ih =>
    rw [splitFirst] at h
    cases hf : f a with
    | some b => simp [hf] at h
    | none =>
      simp only [hf, Option.map_eq_none_iff] at h
      exact forall_mem_cons.mpr ⟨hf, ih h⟩

theorem splitFirst_eq_some {b : β}
    (h : l.splitFirst f = some (before, b, after)) :
    ∃ a, l = before ++ a :: after ∧ f a = some b ∧ ∀ x ∈ before, f x = none := by
  induction l generalizing before with
  | nil => simp [splitFirst] at h
  | cons a rest ih =>
    rw [splitFirst] at h
    cases hf : f a with
    | some b' =>
      simp only [hf, Option.some.injEq, Prod.mk.injEq] at h
      obtain ⟨rfl, rfl, rfl⟩ := h
      exact ⟨a, rfl, hf, by simp⟩
    | none =>
      simp only [hf, Option.map_eq_some_iff, Prod.exists, Prod.mk.injEq] at h
      obtain ⟨before', b', after', hrest, rfl, rfl, rfl⟩ := h
      obtain ⟨x, hl, hx, hbefore⟩ := ih hrest
      exact ⟨x, by rw [hl]; rfl, hx, forall_mem_cons.mpr ⟨hf, hbefore⟩⟩

theorem splitFirst_append_cons {a : α} {b : β}
    (hbefore : ∀ x ∈ before, f x = none) (ha : f a = some b) :
    (before ++ a :: after).splitFirst f = some (before, b, after) := by
  induction before with
  | nil => simp [splitFirst, ha]
  | cons x rest ih =>
    obtain ⟨hx, hrest⟩ := forall_mem_cons.mp hbefore
    rw [cons_append, splitFirst, hx, ih hrest]
    rfl

theorem splitFirst_of_forall (h : ∀ a ∈ l, f a = none) : l.splitFirst f = none := by
  induction l with
  | nil => rfl
  | cons a rest ih =>
    obtain ⟨ha, hrest⟩ := forall_mem_cons.mp h
    rw [splitFirst, ha, ih hrest]
    rfl

end List
