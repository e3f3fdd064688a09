/-
Patterns between stars.

A pattern that is a plain text between stars matches just the texts that contain the plain
one. What is read of it are a star, the characters, and a star again; the characters take
themselves off the text, and each star what is left on its side.
-/
import Provenance.Glob

set_option autoImplicit false

namespace Provenance.Glob

variable {u a b t : Text} {items : List Item}

/-! ## Matching -/

theorem mem_ends_iff : b ∈ ends t ↔ b <:+ t := by
  induction t with
  | nil => simp [ends]
  | cons c t ih => rw [ends, List.mem_cons, ih, List.suffix_cons_iff]

/-- A star takes any beginning of a text. -/
theorem itemsMatch_star_iff : itemsMatch (.star :: items) t = true
    ↔ ∃ a b, a ++ b = t ∧ itemsMatch items b = true := by
  rw [itemsMatch, List.any_eq_true]
  constructor
  · rintro ⟨b, hb, h⟩
    obtain ⟨a, ha⟩ := mem_ends_iff.mp hb
    exact ⟨a, b, ha, h⟩
  · rintro ⟨a, b, rfl, h⟩
    exact ⟨b, mem_ends_iff.mpr (List.suffix_append a b), h⟩

/-- A star at the end takes all that is left. -/
theorem itemsMatch_last_star (t : Text) : itemsMatch [.star] t = true :=
  itemsMatch_star_iff.mpr ⟨t, [], List.append_nil t, rfl⟩

/-- Characters take themselves off a text. -/
theorem itemsMatch_chars_iff : itemsMatch (u.map .char ++ items) t = true
    ↔ ∃ b, u ++ b = t ∧ itemsMatch items b = true := by
  induction u generalizing t with
  | nil => simp
  | cons c u ih =>
    cases t with
    | nil => simp [itemsMatch]
    | cons d t =>
      have hstep : itemsMatch (.char c :: (u.map .char ++ items)) (d :: t)
          = ((Item.char c).accepts d && itemsMatch (u.map .char ++ items) t) := by
        rw [itemsMatch]
        exact Item.noConfusion
      rw [List.map_cons, List.cons_append, hstep, Bool.and_eq_true, ih]
      simp only [Item.accepts, decide_eq_true_eq, List.cons_append, List.cons.injEq]
      constructor
      · rintro ⟨rfl, b, hb, h⟩
        exact ⟨b, ⟨rfl, hb⟩, h⟩
      · rintro ⟨b, ⟨rfl, hb⟩, h⟩
        exact ⟨rfl, b, hb, h⟩

/-! ## Reading -/

/-- A character that stands for itself in a pattern. -/
def IsPlain (c : Char) : Prop := c ≠ '*' ∧ c ≠ '?' ∧ c ≠ '['

instance (c : Char) : Decidable (IsPlain c) := inferInstanceAs (Decidable (_ ∧ _ ∧ _))

/-- Plain text is read as its characters. -/
theorem readItems_plain (hu : ∀ c ∈ u, IsPlain c) (fuel : Nat) (t : Text) :
    readItems (u.length + fuel) (u ++ t) = u.map .char ++ readItems fuel t := by
  induction u with
  | nil => simp
  | cons c u ih =>
    obtain ⟨hstar, hany, hset⟩ := hu c List.mem_cons_self
    have hrest := ih fun c' hc' => hu c' (List.mem_cons_of_mem c hc')
    rw [List.length_cons, Nat.add_right_comm, List.cons_append, readItems]
    simp [hstar, hany, hset, hrest]

/-- A star before something else is read as a star. -/
theorem readItems_star {fuel : Nat} (h : ∀ rest, readItems fuel t ≠ .star :: rest) :
    readItems (fuel + 1) ('*' :: t) = .star :: readItems fuel t := by
  rw [readItems]
  rcases hitems : readItems fuel t with _ | ⟨_ | _, rest⟩
  case cons.star => exact absurd hitems (h rest)
  all_goals simp

/-- Two stars are read as one. -/
theorem readItems_stars {fuel : Nat} (h : ∀ rest, readItems fuel t ≠ .star :: rest) :
    readItems (fuel + 2) ('*' :: '*' :: t) = .star :: readItems fuel t := by
  rw [readItems, readItems_star h]
  simp

/-- Plain text between stars is read as a star, its characters, and a star. -/
theorem items_between (hu : ∀ c ∈ u, IsPlain c) (hne : u ≠ []) :
    Glob.items ("**".toList ++ u ++ "**".toList) = .star :: (u.map .char ++ [.star]) := by
  have hplain : readItems (u.length + 2) (u ++ "**".toList) = u.map .char ++ [.star] :=
    readItems_plain hu 2 "**".toList
  have hread : readItems (u.length + 2 + 2) ('*' :: '*' :: (u ++ "**".toList))
      = .star :: readItems (u.length + 2) (u ++ "**".toList) := by
    refine readItems_stars fun rest => ?_
    obtain ⟨c, u, rfl⟩ := List.exists_cons_of_ne_nil hne
    rw [hplain]
    simp
  have hlength : ("**".toList ++ u ++ "**".toList).length = u.length + 2 + 2 := by simp
  rw [Glob.items, hlength, ← hplain, ← hread]
  rfl

/-- A pattern of plain text between stars matches the texts that contain the plain one. -/
theorem globMatch_between_iff (hu : ∀ c ∈ u, IsPlain c) (hne : u ≠ []) :
    globMatch ("**".toList ++ u ++ "**".toList) t = true ↔ u <:+: t := by
  rw [globMatch_eq, items_between hu hne, itemsMatch_star_iff]
  simp only [itemsMatch_chars_iff]
  constructor
  · rintro ⟨a, -, rfl, b, rfl, -⟩
    exact ⟨a, b, List.append_assoc a u b⟩
  · rintro ⟨a, b, rfl⟩
    exact ⟨a, u ++ b, (List.append_assoc a u b).symm, b, rfl, itemsMatch_last_star b⟩

theorem globMatch_between (hu : ∀ c ∈ u, IsPlain c) (hne : u ≠ []) (a b : Text) :
    globMatch ("**".toList ++ u ++ "**".toList) (a ++ u ++ b) = true :=
  (globMatch_between_iff hu hne).mpr ⟨a, b, rfl⟩

end Provenance.Glob
